import MiniBackend.Lib.Runs
import MiniBackend.WebServer.Session

/-!
# The variables of a session

With keys that are not cut off, the variables of a session are an association list of at most 32
entries.  A longer key is stored under its first bytes and never found again.
-/

namespace MiniBackend.WebServer.Proofs.SessionVariables

open MiniBackend.Lib.CString MiniBackend.Lib.CArray MiniBackend.Lib.Runs
open MiniBackend.WebServer.Sessions

/-! ## Association lists -/

abbrev Variables := List (CStr × CStr)

def has (m : Variables) (key : CStr) : Bool := m.any fun v => v.1 == key

def replace (m : Variables) (key value : CStr) : Variables :=
  m.map fun v => if v.1 == key then (v.1, value) else v

def assocApply (m : Variables) : Access → Reply × Variables
  | .varSet key value =>
      if has m key then (.done true, replace m key (strncpy value (sessionMaxValLen - 1)))
      else if sessionMaxVars ≤ m.length then (.done false, m)
      else (.done true, m ++ [(key, strncpy value (sessionMaxValLen - 1))])
  | .varGet key => (.value ((m.find? fun v => v.1 == key).map Prod.snd), m)
  | .varRemove key => (.done (has m key), m.filter fun v => !(v.1 == key))
  | .clear => (.null, [])
  | .read => (.null, m)

def assocStep (s : List Reply × Variables) (access : Access) : List Reply × Variables :=
  (s.1 ++ [(assocApply s.2 access).1], (assocApply s.2 access).2)

def accessStep (s : List Reply × Session) (access : Access) : List Reply × Session :=
  (s.1 ++ [(access.apply s.2).1], (access.apply s.2).2)

/-- Keys are set whole, and the session is not looked at otherwise. -/
def KeepsKeys : Access → Prop
  | .varSet key _ => key.length < sessionMaxKeyLen
  | .read => False
  | _ => True

/-! ## Calls -/

def pairOf (v : SessionVar) : CStr × CStr := (v.key, v.value)

/-- The session has the variables of the list, in some order. -/
structure Holds (s : Session) (m : Variables) : Prop where
  perm : (s.vars.map pairOf).Perm m
  nodup : (m.map Prod.fst).Nodup

variable {s : Session} {m : Variables} {key value : CStr}

theorem Holds.keys_nodup (h : Holds s m) : (s.vars.map SessionVar.key).Nodup := by
  have hkeys := h.perm.map Prod.fst
  rw [List.map_map] at hkeys
  exact hkeys.nodup_iff.mpr h.nodup

theorem Holds.any_eq (h : Holds s m) (key : CStr) :
    (s.vars.any fun v => v.key == key) = has m key := by
  rw [has, ← h.perm.any_eq, List.any_map]
  rfl

theorem Holds.find_eq (h : Holds s m) (key : CStr) :
    sessionVarGet s key = (m.find? fun v => v.1 == key).map Prod.snd := by
  have hpairs : ((s.vars.map pairOf).map Prod.fst).Nodup := by
    rw [List.map_map]
    exact h.keys_nodup
  have hfind := find?_perm_of_pairwise h.perm (pairwise_beq_of_nodup_map hpairs key)
    (pairwise_beq_of_nodup_map h.nodup key)
  rw [← hfind, List.find?_map, Option.map_map, sessionVarGet]
  rfl

theorem Holds.replace (h : Holds s m) (key value : CStr) :
    Holds { s with
        vars := updateFirst (fun v => v.key == key) (fun v => { v with value := value }) s.vars }
      (replace m key value) := by
  constructor
  · dsimp only
    rw [updateFirst_eq_map (pairwise_beq_of_nodup_map h.keys_nodup key), List.map_map]
    have hpairs : (s.vars.map pairOf).map (fun v => if v.1 == key then (v.1, value) else v) =
        s.vars.map (pairOf ∘ fun v => if v.key == key then { v with value := value } else v) := by
      rw [List.map_map]
      apply List.map_congr_left
      intro v _
      by_cases hv : (v.key == key) = true
      · simp only [Function.comp_apply, pairOf, hv, if_true]
      · simp only [Function.comp_apply, pairOf, hv]
        rfl
    rw [← hpairs]
    exact h.perm.map _
  · have hkeys : (SessionVariables.replace m key value).map Prod.fst = m.map Prod.fst := by
      rw [SessionVariables.replace, List.map_map]
      apply List.map_congr_left
      intro v _
      by_cases hv : (v.1 == key) = true
      · rw [Function.comp_apply, if_pos hv]
      · rw [Function.comp_apply, if_neg hv]
    rw [hkeys]
    exact h.nodup

theorem Holds.remove (h : Holds s m) {i : Nat}
    (hi : s.vars.findIdx? (fun v => v.key == key) = some i) :
    Holds { s with vars := swapRemove s.vars i } (m.filter fun v => !(v.1 == key)) := by
  obtain ⟨hlt, -, -⟩ := List.findIdx?_eq_some_iff_getElem.mp hi
  have herase : s.vars.eraseIdx i = s.vars.filter fun v => !(v.key == key) := by
    rw [← eraseP_eq_filter (pairwise_beq_of_nodup_map h.keys_nodup key),
      List.eraseP_eq_eraseIdx, hi]
  constructor
  · have hperm := (swapRemove_perm_eraseIdx hlt).map pairOf
    apply hperm.trans
    rw [herase]
    have hfilter := h.perm.filter fun v => !(v.1 == key)
    rwa [List.filter_map] at hfilter
  · exact (List.filter_sublist.map _).nodup h.nodup

theorem Holds.apply (h : Holds s m) {access : Access} (hkeys : KeepsKeys access) :
    (access.apply s).1 = (assocApply m access).1 ∧
      Holds (access.apply s).2 (assocApply m access).2 := by
  have hlength : s.vars.length = m.length := by rw [← h.perm.length_eq, List.length_map]
  cases access with
  | read => exact hkeys.elim
  | varSet key value =>
      rw [Access.apply, assocApply, sessionVarSet, h.any_eq, hlength]
      by_cases hhas : has m key = true
      · rw [if_pos hhas, if_pos hhas]
        exact ⟨rfl, h.replace key _⟩
      · rw [if_neg hhas, if_neg hhas]
        by_cases hfull : sessionMaxVars ≤ m.length
        · rw [if_pos hfull, if_pos hfull]
          exact ⟨rfl, h⟩
        · rw [if_neg hfull, if_neg hfull]
          have hwhole : strncpy key (sessionMaxKeyLen - 1) = key :=
            strncpy_of_le (Nat.le_sub_one_of_lt hkeys)
          refine ⟨rfl, ?_, ?_⟩
          · rw [hwhole, List.map_append]
            exact h.perm.append_right _
          · rw [List.map_append, List.map_singleton, List.nodup_append]
            refine ⟨h.nodup, List.nodup_singleton _, ?_⟩
            rintro k hk k' hk' rfl
            obtain ⟨v, hv, hkey⟩ := List.mem_map.mp hk
            apply hhas
            exact List.any_eq_true.mpr
              ⟨v, hv, beq_iff_eq.mpr (hkey.trans (List.mem_singleton.mp hk'))⟩
  | varGet key => exact ⟨congrArg Reply.value (h.find_eq key), h⟩
  | varRemove key =>
      have hany := h.any_eq key
      rw [Access.apply, assocApply, sessionVarRemove]
      cases hi : s.vars.findIdx? fun v => v.key == key with
      | none =>
          have hnone : ∀ v ∈ s.vars, (v.key == key) = false := by
            simpa using List.findIdx?_eq_none_iff.mp hi
          have hhas : has m key = false := by
            rw [← hany, List.any_eq_false]
            exact fun v hv => by rw [hnone v hv]; exact Bool.false_ne_true
          have hkeep : (m.filter fun v => !(v.1 == key)) = m := by
            apply List.filter_eq_self.mpr
            intro v hv
            rw [has, List.any_eq_false] at hhas
            rw [Bool.eq_false_iff.mpr (hhas v hv), Bool.not_false]
          rw [hhas, hkeep]
          exact ⟨rfl, h⟩
      | some i =>
          have hhas : has m key = true := by
            rw [← hany, List.any_eq_true]
            obtain ⟨hlt, hkey, -⟩ := List.findIdx?_eq_some_iff_getElem.mp hi
            exact ⟨s.vars[i], List.getElem_mem hlt, hkey⟩
          rw [hhas]
          exact ⟨rfl, h.remove hi⟩
  | clear => exact ⟨rfl, .refl _, List.nodup_nil⟩

/-! ## Runs -/

theorem run_holds {accesses : List Access} (h : Holds s m)
    (hkeys : ∀ access ∈ accesses, KeepsKeys access) (replies : List Reply) :
    (run accessStep (replies, s) accesses).1 = (run assocStep (replies, m) accesses).1 ∧
      Holds (run accessStep (replies, s) accesses).2 (run assocStep (replies, m) accesses).2 := by
  induction accesses generalizing s m replies with
  | nil => exact ⟨rfl, h⟩
  | cons access accesses ih =>
      obtain ⟨haccess, hrest⟩ := List.forall_mem_cons.mp hkeys
      obtain ⟨hreply, hholds⟩ := h.apply haccess
      rw [run_cons, run_cons, accessStep, assocStep, hreply]
      exact ih hholds hrest _

/-- Every reply about the variables of a new session is that of the association list. -/
theorem variables_refine_assoc {accesses : List Access} (hvars : s.vars = [])
    (hkeys : ∀ access ∈ accesses, KeepsKeys access) :
    (run accessStep ([], s) accesses).1 = (run assocStep ([], []) accesses).1 := by
  have hholds : Holds s [] := ⟨by rw [hvars]; exact .refl _, List.nodup_nil⟩
  exact (run_holds hholds hkeys []).1

theorem variables_refine_assoc_swapped :
    (run accessStep ([], ⟨[], [], 0, 0, 0, true⟩)
      [.varSet [97] [1], .varSet [98] [2], .varSet [99] [3], .varRemove [97], .varSet [98] [4],
        .varGet [98]]).1 =
    (run assocStep ([], [])
      [.varSet [97] [1], .varSet [98] [2], .varSet [99] [3], .varRemove [97], .varSet [98] [4],
        .varGet [98]]).1 :=
  variables_refine_assoc rfl (by simp [KeepsKeys, sessionMaxKeyLen])

end MiniBackend.WebServer.Proofs.SessionVariables
