import Mathlib.Data.List.Induction
import Mathlib.Data.List.Nodup
import Mathlib.Logic.Function.Basic

/-!
# Paths of links

Nodes are named by numbers.  A partial function gives the link of each node, with `none` for
a node that is not there, and a null link is `none` in turn.  A segment is a list of
different nodes that lead from one link to another one; a doubly linked list is a segment
along one kind of link and the reversed segment along the other.
-/

namespace MiniBackend.Lib.LinkPath

abbrev Link := Option Nat

def Segment (link : Nat → Option Link) : Link → List Nat → Link → Prop
  | head, [], after => head = after
  | head, p :: l, after => head = some p ∧ ∃ x, link p = some x ∧ Segment link x l after

variable {link link' : Nat → Option Link} {head after x : Link} {l m : List Nat} {p q : Nat}

attribute [local simp] Segment in
theorem segment_append : Segment link head (l ++ m) after ↔
    ∃ mid, Segment link head l mid ∧ Segment link mid m after := by
  induction l generalizing head with
  | nil => simp
  | cons p l ih =>
      simp only [List.cons_append, Segment, ih]
      constructor
      · rintro ⟨hhead, x, hx, mid, hl, hm⟩
        exact ⟨mid, ⟨hhead, x, hx, hl⟩, hm⟩
      · rintro ⟨mid, ⟨hhead, x, hx, hl⟩, hm⟩
        exact ⟨hhead, x, hx, mid, hl, hm⟩

theorem Segment.congr (h : Segment link head l after) (hsame : ∀ p ∈ l, link' p = link p) :
    Segment link' head l after := by
  induction l generalizing head with
  | nil => exact h
  | cons p l ih =>
      obtain ⟨hhead, x, hx, hl⟩ := h
      refine ⟨hhead, x, (hsame p List.mem_cons_self).trans hx, ?_⟩
      exact ih hl fun q hq => hsame q (List.mem_cons_of_mem p hq)

theorem Segment.link_isSome (h : Segment link head l after) (hp : p ∈ l) :
    ∃ x, link p = some x := by
  obtain ⟨m, n, rfl⟩ := List.append_of_mem hp
  obtain ⟨mid, -, -, x, hx, -⟩ := segment_append.mp h
  exact ⟨x, hx⟩

theorem Segment.head_eq (h : Segment link head l after) : head = l.head?.or after := by
  cases l with
  | nil => exact h
  | cons p l => exact h.1

/-- The link of a node leads to the node after it. -/
theorem Segment.link_eq (h : Segment link head (l ++ p :: m) none) : link p = some m.head? := by
  obtain ⟨mid, -, -, x, hx, hm⟩ := segment_append.mp h
  rw [hx, hm.head_eq, Option.or_none]

theorem Segment.push (h : Segment link head l after) (hp : link' p = some head)
    (hsame : ∀ q ∈ l, link' q = link q) : Segment link' (some p) (p :: l) after :=
  ⟨rfl, head, hp, h.congr hsame⟩

theorem Segment.redirect (h : Segment link head l after) (hnodup : l.Nodup)
    (hlink : ∀ q ∈ l, link' q = if l.getLast? = some q then some x else link q) :
    Segment link' (if l = [] then x else head) l x := by
  induction l using List.reverseRecOn with
  | nil => rfl
  | append_singleton l p _ =>
      obtain ⟨mid, hl, hhead, y, hy, -⟩ := segment_append.mp h
      have hp : p ∉ l := fun hmem =>
        (List.nodup_append.mp hnodup).2.2 p hmem p List.mem_cons_self rfl
      rw [if_neg (List.append_ne_nil_of_right_ne_nil l (List.cons_ne_nil p []))]
      apply segment_append.mpr
      refine ⟨mid, ?_, hhead, x, ?_, rfl⟩
      · apply hl.congr
        intro q hq
        rw [hlink q (List.mem_append_left [p] hq), if_neg]
        rw [List.getLast?_append_cons]
        intro heq
        cases heq
        exact hp hq
      · rw [hlink p (by simp), if_pos (by simp)]

/-- A node is taken out when the link that led to it is sent to the node after it. -/
theorem Segment.remove (h : Segment link head (l ++ p :: m) after)
    (hnodup : (l ++ p :: m).Nodup) (hp : link p = some x)
    (hlink : ∀ q ∈ l ++ m, link' q = if l.getLast? = some q then some x else link q) :
    Segment link' (if l = [] then x else head) (l ++ m) after := by
  obtain ⟨mid, hl, hmid, y, hy, hm⟩ := segment_append.mp h
  obtain rfl : y = x := Option.some.inj (hy.symm.trans hp)
  rw [List.nodup_append] at hnodup
  apply segment_append.mpr
  refine ⟨y, ?_, ?_⟩
  · exact hl.redirect hnodup.1 fun q hq => hlink q (List.mem_append_left m hq)
  · apply hm.congr
    intro q hq
    rw [hlink q (List.mem_append_right l hq), if_neg]
    intro hlast
    exact hnodup.2.2 q (List.mem_of_getLast? hlast) q (List.mem_cons_of_mem p hq) rfl

theorem Segment.concat (h : Segment link head l none) (hnodup : l.Nodup)
    (hp : link' p = some none)
    (hlink : ∀ q ∈ l, link' q = if l.getLast? = some q then some (some p) else link q) :
    Segment link' (if l = [] then some p else head) (l ++ [p]) none :=
  segment_append.mpr ⟨some p, h.redirect hnodup hlink, rfl, none, hp, rfl⟩

/-! ## Walks -/

/-- Walk along the links from `cur` to the first node that is wanted, and return it with the
node before it.  A walk over more nodes than `fuel`, or to a node that is not there, has no
result. -/
def walk {ν : Type*} (heap : Nat → Option ν) (next : ν → Link) (wanted : Nat → ν → Bool) :
    Nat → Link → Link → Option (Option (Link × Nat))
  | _, _, none => some none
  | 0, _, some _ => none
  | fuel + 1, before, some p =>
      match heap p with
      | none => none
      | some node =>
          if wanted p node then some (some (before, p))
          else walk heap next wanted fuel (some p) (next node)

section

variable {ν : Type*} {heap : Nat → Option ν} {next : ν → Link} {wanted : Nat → ν → Bool}
  {fuel : Nat} {before : Link}

theorem walk_none (h : Segment (fun p => (heap p).map next) head l none)
    (hl : ∀ p ∈ l, ∀ node ∈ heap p, wanted p node = false) (hfuel : l.length ≤ fuel) :
    walk heap next wanted fuel before head = some none := by
  induction l generalizing head before fuel with
  | nil =>
      cases h
      cases fuel <;> rfl
  | cons p l ih =>
      obtain ⟨hhead, x, hx, hrest⟩ := h
      obtain ⟨node, hnode, hnext⟩ := Option.map_eq_some_iff.mp hx
      cases fuel with
      | zero => simp at hfuel
      | succ fuel =>
          rw [hhead, walk, hnode]
          simp only [hl p List.mem_cons_self node hnode, Bool.false_eq_true, if_false, hnext]
          apply ih hrest
          · exact fun q hq => hl q (List.mem_cons_of_mem p hq)
          · simpa using hfuel

theorem walk_first (h : Segment (fun p => (heap p).map next) head (l ++ p :: m) none)
    (hl : ∀ q ∈ l, ∀ node ∈ heap q, wanted q node = false)
    (hp : ∀ node ∈ heap p, wanted p node = true) (hfuel : l.length < fuel) :
    walk heap next wanted fuel before head = some (some (l.getLast?.or before, p)) := by
  induction l generalizing head before fuel with
  | nil =>
      obtain ⟨hhead, x, hx, -⟩ := h
      obtain ⟨node, hnode, -⟩ := Option.map_eq_some_iff.mp hx
      cases fuel with
      | zero => simp at hfuel
      | succ fuel =>
          rw [hhead, walk, hnode]
          simp [hp node hnode]
  | cons q l ih =>
      obtain ⟨hhead, x, hx, hrest⟩ := h
      obtain ⟨node, hnode, hnext⟩ := Option.map_eq_some_iff.mp hx
      cases fuel with
      | zero => simp at hfuel
      | succ fuel =>
          rw [hhead, walk, hnode]
          simp only [hl q List.mem_cons_self node hnode, Bool.false_eq_true, if_false, hnext]
          rw [ih hrest (fun r hr => hl r (List.mem_cons_of_mem q hr)) (by simpa using hfuel)]
          cases l with
          | nil => rfl
          | cons r l =>
              rw [List.getLast?_cons_cons, List.getLast?_cons, Option.some_or, Option.some_or]

end

end MiniBackend.Lib.LinkPath
