import Mathlib.Logic.Relation
import Mathlib.Order.WellFoundedSet

/-!
# Directed graphs as relations

Bounded reachability and cycles, for a relation read as the edges of a graph.
-/

namespace MiniBackend.Lib.Digraph

variable {α : Type*}

def ReachWithin (R : α → α → Prop) : Nat → α → α → Prop
  | 0, a, c => a = c
  | n + 1, a, c => a = c ∨ ∃ b, R a b ∧ ReachWithin R n b c

theorem reachWithin_of_sink {R : α → α → Prop} {a : α} (ha : ∀ b, ¬R a b) {n : Nat} {c : α} :
    ReachWithin R n a c ↔ a = c := by
  cases n with
  | zero => rfl
  | succ n =>
      constructor
      · rintro (h | ⟨b, hb, -⟩)
        · exact h
        · exact absurd hb (ha b)
      · exact .inl

/-! ## Cycles -/

def Acyclic (R : α → α → Prop) : Prop := ∀ a, ¬Relation.TransGen R a a

theorem Acyclic.of_map {β : Type*} {R : α → α → Prop} {S : β → β → Prop} (h : Acyclic S)
    (f : α → β) (hf : ∀ a b, R a b → S (f a) (f b)) : Acyclic R :=
  fun a ha => h (f a) (Relation.TransGen.lift f hf a a ha)

theorem Acyclic.mono {R S : α → α → Prop} (h : Acyclic S) (hRS : ∀ a b, R a b → S a b) :
    Acyclic R := h.of_map id hRS

/-- A path after one edge was added: it avoids the new edge, or it runs into its
source and out of its target. -/
theorem transGen_insert_cases {R : α → α → Prop} {a b x y : α}
    (hba : ¬Relation.ReflTransGen R b a)
    (h : Relation.TransGen (fun u v => R u v ∨ (u = a ∧ v = b)) x y) :
    Relation.TransGen R x y ∨ (Relation.ReflTransGen R x a ∧ Relation.ReflTransGen R b y) := by
  induction h with
  | single hxy =>
      obtain hxy | ⟨rfl, rfl⟩ := hxy
      · exact .inl (.single hxy)
      · exact .inr ⟨.refl, .refl⟩
  | tail _ hyz ih =>
      obtain hyz | ⟨rfl, rfl⟩ := hyz
      · exact ih.imp (fun hxy => hxy.tail hyz) fun hxy => ⟨hxy.1, hxy.2.tail hyz⟩
      · exact .inr ⟨ih.elim (fun hxy => hxy.to_reflTransGen) fun hxy => absurd hxy.2 hba, .refl⟩

theorem Acyclic.insert {R : α → α → Prop} (h : Acyclic R) {a b : α}
    (hba : ¬Relation.ReflTransGen R b a) : Acyclic fun u v => R u v ∨ (u = a ∧ v = b) := by
  intro x hx
  obtain hx | ⟨hxa, hbx⟩ := transGen_insert_cases hba hx
  · exact h x hx
  · exact hba (hbx.trans hxa)

/-- An acyclic graph with finitely many sources of edges can be worked off from its
sources. -/
theorem Acyclic.wellFounded {R : α → α → Prop} (h : Acyclic R) {s : Set α} (hs : s.Finite)
    (hR : ∀ a b, R a b → a ∈ s) : WellFounded R := by
  have : IsStrictOrder α (Relation.TransGen R) := {
    irrefl := h
    trans := fun _ _ _ => Relation.TransGen.trans }
  have hwf : s.WellFoundedOn (Relation.TransGen R) := hs.wellFoundedOn
  have hacc : ∀ a ∈ s, Acc R a := by
    intro a ha
    refine hwf.induction ha fun a _ ih => ?_
    exact Acc.intro a fun b hb => ih b (hR b a hb) (.single hb)
  exact ⟨fun a => Acc.intro a fun b hb => hacc b (hR b a hb)⟩

/-- A cycle can be reached from the node, along no edge or more. -/
def ReachesCycle (R : α → α → Prop) (a : α) : Prop :=
  ∃ b, Relation.ReflTransGen R a b ∧ Relation.TransGen R b b

theorem ReachesCycle.head {R : α → α → Prop} {a b : α} (hab : R a b) (h : ReachesCycle R b) :
    ReachesCycle R a := by
  obtain ⟨c, hbc, hc⟩ := h
  exact ⟨c, hbc.head hab, hc⟩

theorem ReachesCycle.next {R : α → α → Prop} {a : α} (h : ReachesCycle R a) :
    ∃ b, R a b ∧ ReachesCycle R b := by
  obtain ⟨c, hac, hc⟩ := h
  rcases hac.cases_head with rfl | ⟨b, hab, hbc⟩
  · obtain ⟨b, hab, hba⟩ := Relation.TransGen.head'_iff.mp hc
    exact ⟨b, hab, a, hba, hc⟩
  · exact ⟨b, hab, c, hbc, hc⟩

theorem Acyclic.not_reachesCycle {R : α → α → Prop} (h : Acyclic R) (a : α) : ¬ReachesCycle R a :=
  fun ⟨b, _, hb⟩ => h b hb

/-- In a graph with finitely many targets of edges, a search along the edges comes to an end
exactly when it meets no cycle. -/
theorem acc_swap_iff {R : α → α → Prop} {s : Set α} (hs : s.Finite) (hR : ∀ a b, R a b → b ∈ s)
    (a : α) : Acc (Function.swap R) a ↔ ¬ReachesCycle R a := by
  constructor
  · intro hacc
    induction hacc with
    | intro a _ ih =>
        intro h
        obtain ⟨b, hab, hb⟩ := h.next
        exact ih b hab hb
  · intro h
    -- the part of the graph that the node reaches has no cycle
    let S := fun b c => Relation.ReflTransGen R a c ∧ R c b
    have hpath : ∀ b c, Relation.TransGen S b c → Relation.TransGen R c b ∧
        Relation.ReflTransGen R a c := by
      intro b c hbc
      induction hbc with
      | single hbc => exact ⟨.single hbc.2, hbc.1⟩
      | tail _ hcd ih => exact ⟨.head hcd.2 ih.1, hcd.1⟩
    have hacyclic : Acyclic S := fun b hb => h ⟨b, (hpath b b hb).2, (hpath b b hb).1⟩
    have hwf := hacyclic.wellFounded hs fun b c hbc => hR c b hbc.2
    have hacc : ∀ b, Relation.ReflTransGen R a b → Acc (Function.swap R) b := by
      intro b
      induction b using hwf.induction with
      | _ b ih => exact fun hab => Acc.intro b fun c hbc => ih c ⟨hab, hbc⟩ (hab.tail hbc)
    exact hacc a .refl

theorem add_length_le_of_isChain {R : α → α → Prop} {f : α → Nat}
    (hf : ∀ a b, R a b → f a + 1 ≤ f b) {a b : α} {path : List α} (h : (a :: path).IsChain R)
    (hlast : (a :: path).getLast? = some b) : f a + path.length ≤ f b := by
  induction path generalizing a with
  | nil =>
      have hab : a = b := by simpa using hlast
      rw [hab]
      simp
  | cons c path ih =>
      obtain ⟨hac, hrest⟩ := List.isChain_cons_cons.mp h
      have hstep := hf a c hac
      have hih := ih hrest (by simpa using hlast)
      simp only [List.length_cons]
      omega

/-! ## Orders of the nodes -/

def Precedes (order : List α) (a b : α) : Prop := [a, b].Sublist order

theorem Precedes.append {order : List α} {a b : α} (h : Precedes order a b) (l : List α) :
    Precedes (order ++ l) a b := List.Sublist.trans h (List.sublist_append_left order l)

theorem Precedes.cons {order : List α} {a b : α} (h : Precedes order a b) (c : α) :
    Precedes (c :: order) a b := List.Sublist.cons c h

theorem precedes_concat {order : List α} {a : α} (ha : a ∈ order) (b : α) :
    Precedes (order ++ [b]) a b :=
  (List.singleton_sublist.mpr ha).append (List.Sublist.refl [b])

theorem precedes_cons {order : List α} (a : α) {b : α} (hb : b ∈ order) :
    Precedes (a :: order) a b := (List.singleton_sublist.mpr hb).cons_cons a

theorem Precedes.map {β : Type*} {order : List α} {a b : α} (h : Precedes order a b)
    (f : α → β) : Precedes (order.map f) (f a) (f b) := List.Sublist.map f h

theorem Precedes.ne {order : List α} {a b : α} (h : Precedes order a b) (hnodup : order.Nodup) :
    a ≠ b := by
  have := hnodup.sublist h
  simpa using this

theorem Precedes.mem_front {front back : List α} {a b : α} (h : Precedes (front ++ back) a b)
    (hb : b ∈ front) (hnodup : (front ++ back).Nodup) : a ∈ front := by
  obtain ⟨l, r, heq, hl, hr⟩ := List.sublist_append_iff.mp h
  cases l with
  | nil =>
      have hmem : b ∈ back := hr.subset (by rw [← List.nil_append r, ← heq]; simp)
      exact absurd rfl ((List.nodup_append.mp hnodup).2.2 b hb b hmem)
  | cons c l =>
      obtain ⟨rfl, -⟩ := List.cons.inj heq
      exact hl.subset List.mem_cons_self

theorem precedes_of_pairwise_lt [Preorder α] {order : List α}
    (h : order.Pairwise (· < ·)) {a b : α} (ha : a ∈ order) (hb : b ∈ order) (hab : a < b) :
    Precedes order a b := by
  induction order with
  | nil => exact absurd ha List.not_mem_nil
  | cons c order ih =>
      obtain ⟨hc, hrest⟩ := List.pairwise_cons.mp h
      rcases List.mem_cons.mp hb with rfl | hblater
      · rcases List.mem_cons.mp ha with rfl | halater
        · exact absurd hab (lt_irrefl a)
        · exact absurd hab (hc a halater).asymm
      · rcases List.mem_cons.mp ha with rfl | halater
        · exact precedes_cons a hblater
        · exact (ih hrest halater hblater).cons c

theorem Precedes.idxOf_lt [DecidableEq α] {order : List α} {a b : α} (h : Precedes order a b)
    (hnodup : order.Nodup) : order.idxOf a < order.idxOf b := by
  induction order with
  | nil => exact absurd h (by simp [Precedes])
  | cons c order ih =>
      have hne := h.ne hnodup
      by_cases hca : c = a
      · subst hca
        rw [List.idxOf_cons_self, List.idxOf_cons_ne _ hne]
        exact Nat.succ_pos _
      · have htail : Precedes order a b := by
          rcases List.sublist_cons_iff.mp h with h | ⟨r, hr, -⟩
          · exact h
          · exact absurd (List.cons.inj hr).1.symm hca
        have hb : b ∈ order := htail.subset (by simp)
        have hcb : c ≠ b := fun heq => (List.nodup_cons.mp hnodup).1 (heq ▸ hb)
        rw [List.idxOf_cons_ne _ hca, List.idxOf_cons_ne _ hcb]
        exact Nat.succ_lt_succ (ih htail (List.nodup_cons.mp hnodup).2)

theorem acyclic_of_precedes {R : α → α → Prop} {order : List α} (hnodup : order.Nodup)
    (h : ∀ a b, R a b → Precedes order a b) : Acyclic R := by
  classical
  have hpath : ∀ i j : Nat, Relation.TransGen (fun i j => i < j) i j → i < j := by
    intro i j hij
    induction hij with
    | single hlt => exact hlt
    | tail _ hlt ih => exact ih.trans hlt
  have hlt : Acyclic fun i j : Nat => i < j := fun i hi => lt_irrefl i (hpath i i hi)
  exact hlt.of_map order.idxOf fun a b hab => (h a b hab).idxOf_lt hnodup

end MiniBackend.Lib.Digraph
