import MiniBackend.Auth.RbacEngine
import MiniBackend.Lib.Digraph

/-!
# RBAC decisions and the current policy

The policy of a run is what its successful calls built up: parent links, granted
masks, and for every user the roles that were assigned more often than removed.
The engine answers from that policy, up to ten parent links away from a held role,
as long as no cached answer has been overtaken by a later grant or parent link.
-/

namespace MiniBackend.Auth.Proofs.RbacPolicy

open MiniBackend.Lib.CString MiniBackend.Lib.CArray MiniBackend.Lib.Runs
open MiniBackend.Lib.Digraph MiniBackend.Auth.Rbac

/-! ## The policy -/

/-- Bit `i` of a permission mask. -/
def permits (mask : UInt64) (i : Nat) : Bool := mask.toBitVec.getLsbD i

def maskOf (eng : RbacEngine) (roleName : CStr) : UInt64 :=
  match rbacFindRole eng roleName with
  | some role => role.permissionMask
  | none => 0

def ParentLink (eng : RbacEngine) (roleName parent : CStr) : Prop :=
  ∃ role, rbacFindRole eng roleName = some role ∧ parent ∈ role.parentRoles

def assigns (username roleName : CStr) (eng : RbacEngine) (op : Op) : Bool :=
  op = .assignRole username roleName ∧ (rbacAssignRole eng username roleName).1 = 0

def removes (username roleName : CStr) (eng : RbacEngine) (op : Op) : Bool :=
  op = .removeRole username roleName ∧ (rbacRemoveRole eng username roleName).1 = 0

/-- The user holds the role: more successful assignments than removals. -/
def Holds (ops : List Op) (username roleName : CStr) : Prop :=
  countSteps step (removes username roleName) rbacEngineInit ops <
    countSteps step (assigns username roleName) rbacEngineInit ops

structure CacheHistory where
  queried : Bool
  overtaken : Bool

def cacheHistoryStep (username : CStr) (h : CacheHistory) (eng : RbacEngine) :
    Op → CacheHistory
  | .registerRole .. => h
  | .roleAddParent roleName parentRoleName =>
      if (rbacRoleAddParent eng roleName parentRoleName).1 = 0 then
        { h with overtaken := h.overtaken || h.queried }
      else h
  | .roleGrantPermission roleName permMask =>
      if (rbacRoleGrantPermission eng roleName permMask).1 = 0 then
        { h with overtaken := h.overtaken || h.queried }
      else h
  | .createUser user =>
      if user = username ∧ (rbacCreateUser eng user).1 = 0 then ⟨false, false⟩ else h
  | .assignRole user roleName =>
      if user = username ∧ (rbacAssignRole eng user roleName).1 = 0 then ⟨false, false⟩ else h
  | .removeRole user roleName =>
      if user = username ∧ (rbacRemoveRole eng user roleName).1 = 0 then ⟨false, false⟩ else h
  | .getEffectivePermissions user => if user = username then { h with queried := true } else h
  | .checkPermission user _ => if user = username then { h with queried := true } else h

/-- A parent link or a grant succeeded after the answer for `username` was cached. -/
def cacheOvertaken (ops : List Op) (username : CStr) : Bool :=
  (observe step (cacheHistoryStep username) ⟨false, false⟩ rbacEngineInit ops).overtaken

/-- All names in the call are shorter than the fields that hold them. -/
def NamesFit : Op → Prop
  | .registerRole name _ _ => name.length < rbacMaxRolenameLen
  | .roleAddParent roleName parentRoleName =>
      roleName.length < rbacMaxRolenameLen ∧ parentRoleName.length < rbacMaxRolenameLen
  | .roleGrantPermission roleName _ => roleName.length < rbacMaxRolenameLen
  | .createUser username => username.length < rbacMaxUsernameLen
  | .assignRole username roleName =>
      username.length < rbacMaxUsernameLen ∧ roleName.length < rbacMaxRolenameLen
  | .removeRole username roleName =>
      username.length < rbacMaxUsernameLen ∧ roleName.length < rbacMaxRolenameLen
  | .getEffectivePermissions username => username.length < rbacMaxUsernameLen
  | .checkPermission username _ => username.length < rbacMaxUsernameLen

instance : DecidablePred NamesFit := fun op =>
  match op with
  | .registerRole .. => inferInstanceAs (Decidable (_ < _))
  | .roleAddParent .. => inferInstanceAs (Decidable (_ ∧ _))
  | .roleGrantPermission .. => inferInstanceAs (Decidable (_ < _))
  | .createUser _ => inferInstanceAs (Decidable (_ < _))
  | .assignRole .. => inferInstanceAs (Decidable (_ ∧ _))
  | .removeRole .. => inferInstanceAs (Decidable (_ ∧ _))
  | .getEffectivePermissions _ => inferInstanceAs (Decidable (_ < _))
  | .checkPermission .. => inferInstanceAs (Decidable (_ < _))

/-! ## Resolving a role -/

theorem permits_zero (i : Nat) : permits 0 i = false := by
  simp [permits]

theorem permits_or (a b : UInt64) (i : Nat) :
    permits (a ||| b) i = (permits a i || permits b i) := by
  simp [permits]

theorem permits_foldl_or {α : Type} (f : α → UInt64) (l : List α) (mask : UInt64) (i : Nat) :
    permits (l.foldl (fun mask x => mask ||| f x) mask) i = true ↔
      permits mask i = true ∨ ∃ x ∈ l, permits (f x) i = true := by
  induction l generalizing mask with
  | nil => simp
  | cons x l ih =>
      rw [List.foldl_cons, ih, permits_or]
      simp [or_assoc]

theorem rbacResolvePermMask_zero (eng : RbacEngine) (roleName : CStr) :
    rbacResolvePermMask eng roleName 0 = 0 := by
  unfold rbacResolvePermMask
  cases rbacFindRole eng roleName <;> rfl

theorem rbacResolvePermMask_succ (eng : RbacEngine) (roleName : CStr) (n : Nat) :
    rbacResolvePermMask eng roleName (n + 1) =
      match rbacFindRole eng roleName with
      | none => 0
      | some role => role.parentRoles.foldl
          (fun mask parent => mask ||| rbacResolvePermMask eng parent n) role.permissionMask := by
  conv_lhs => unfold rbacResolvePermMask
  cases rbacFindRole eng roleName <;> rfl

/-- A recursion with budget `n + 1` sees exactly the roles at most `n` links away. -/
theorem permits_resolve (eng : RbacEngine) (n : Nat) (roleName : CStr) (i : Nat) :
    permits (rbacResolvePermMask eng roleName (n + 1)) i = true ↔
      ∃ r, ReachWithin (ParentLink eng) n roleName r ∧ permits (maskOf eng r) i = true := by
  induction n generalizing roleName with
  | zero =>
      rw [rbacResolvePermMask_succ]
      cases hfind : rbacFindRole eng roleName with
      | none => simp [ReachWithin, maskOf, hfind, permits_zero]
      | some role =>
          simp [ReachWithin, maskOf, hfind, rbacResolvePermMask_zero]
  | succ n ih =>
      rw [rbacResolvePermMask_succ]
      cases hfind : rbacFindRole eng roleName with
      | none =>
          have hsink : ∀ p, ¬ParentLink eng roleName p := by
            rintro p ⟨role, hrole, -⟩
            simp [hfind] at hrole
          simp [reachWithin_of_sink hsink, maskOf, hfind, permits_zero]
      | some role =>
          have hlink : ∀ p, ParentLink eng roleName p ↔ p ∈ role.parentRoles := by
            intro p
            simp [ParentLink, hfind]
          simp only [permits_foldl_or, ih]
          constructor
          · rintro (h | ⟨p, hp, r, hreach, h⟩)
            · exact ⟨roleName, .inl rfl, by simpa [maskOf, hfind] using h⟩
            · exact ⟨r, .inr ⟨p, (hlink p).mpr hp, hreach⟩, h⟩
          · rintro ⟨r, rfl | ⟨p, hp, hreach⟩, h⟩
            · exact .inl (by simpa [maskOf, hfind] using h)
            · exact .inr ⟨p, (hlink p).mp hp, r, hreach, h⟩

theorem permits_resolveUser (eng : RbacEngine) (user : RbacUser) (i : Nat) :
    permits (resolveUser eng user) i = true ↔
      ∃ roleName ∈ user.roleNames, ∃ r,
        ReachWithin (ParentLink eng) 10 roleName r ∧ permits (maskOf eng r) i = true := by
  simp only [resolveUser, permits_foldl_or, permits_zero, permits_resolve eng 10]
  simp

theorem rbacResolvePermMask_congr {eng eng' : RbacEngine} (h : eng'.roles = eng.roles)
    (roleName : CStr) (budget : Nat) :
    rbacResolvePermMask eng' roleName budget = rbacResolvePermMask eng roleName budget := by
  induction budget generalizing roleName with
  | zero => rw [rbacResolvePermMask_zero, rbacResolvePermMask_zero]
  | succ n ih =>
      have hfind : rbacFindRole eng' roleName = rbacFindRole eng roleName := by
        rw [rbacFindRole, h, rbacFindRole]
      rw [rbacResolvePermMask_succ, rbacResolvePermMask_succ, hfind]
      simp only [ih]

theorem resolveUser_congr {eng eng' : RbacEngine} (h : eng'.roles = eng.roles)
    (user : RbacUser) : resolveUser eng' user = resolveUser eng user := by
  simp only [resolveUser, rbacResolvePermMask_congr h]

theorem rbacResolvePermMask_append {eng : RbacEngine} {role : RbacRole}
    (hmask : role.permissionMask = 0) (hparents : role.parentRoles = []) (roleName : CStr)
    (budget : Nat) :
    rbacResolvePermMask { eng with roles := eng.roles ++ [role] } roleName budget =
      rbacResolvePermMask eng roleName budget := by
  induction budget generalizing roleName with
  | zero => rw [rbacResolvePermMask_zero, rbacResolvePermMask_zero]
  | succ n ih =>
      have hfind : rbacFindRole { eng with roles := eng.roles ++ [role] } roleName =
          (rbacFindRole eng roleName).or (if role.name == roleName then some role else none) := by
        simp only [rbacFindRole, List.find?_append, List.find?_cons, List.find?_nil]
        cases role.name == roleName <;> rfl
      rw [rbacResolvePermMask_succ, rbacResolvePermMask_succ, hfind]
      cases rbacFindRole eng roleName with
      | some found => simp only [Option.some_or, ih]
      | none =>
          by_cases hname : (role.name == roleName) = true
          · simp [hname, hmask, hparents]
          · simp [hname]

/-! ## Looking up a user after a call -/

theorem addRoleName_username {roleName : CStr} (user : RbacUser) :
    (addRoleName roleName user).username = user.username := rfl

theorem dropRoleName_username {roleName : CStr} (user : RbacUser) :
    (dropRoleName roleName user).username = user.username := rfl

theorem fillCache_username {mask : UInt64} (user : RbacUser) :
    (fillCache mask user).username = user.username := rfl

theorem rbacFindUser_setUser_self (eng : RbacEngine) (username : CStr)
    {f : RbacUser → RbacUser} (hf : ∀ user, (f user).username = user.username) :
    rbacFindUser (setUser eng username f) username = (rbacFindUser eng username).map f :=
  find?_updateFirst (fun user huser => by rwa [hf user]) eng.users

theorem rbacFindUser_setUser_of_ne (eng : RbacEngine) {username other : CStr}
    (hne : other ≠ username) {f : RbacUser → RbacUser}
    (hf : ∀ user, (f user).username = user.username) :
    rbacFindUser (setUser eng other f) username = rbacFindUser eng username := by
  refine find?_updateFirst_of_disjoint ?_ eng.users
  intro user huser
  have hname : user.username = other := by simpa using huser
  rw [hf user, hname]
  simpa using hne

theorem rbacFindUser_append (eng : RbacEngine) (user : RbacUser) (username : CStr) :
    rbacFindUser { eng with users := eng.users ++ [user] } username =
      (rbacFindUser eng username).or (if user.username = username then some user else none) := by
  simp only [rbacFindUser, List.find?_append, List.find?_cons, List.find?_nil]
  by_cases h : user.username = username
  · simp [h]
  · rw [if_neg h, beq_false_of_ne h]

/-! ## What a call can do -/

theorem users_registerRole (eng : RbacEngine) (name : CStr) (roleId : RbacRoleId)
    (priority : Int) : (rbacRegisterRole eng name roleId priority).2.users = eng.users := by
  unfold rbacRegisterRole
  split
  · rfl
  · split <;> rfl

theorem resolve_registerRole (eng : RbacEngine) (name : CStr) (roleId : RbacRoleId)
    (priority : Int) (roleName : CStr) (budget : Nat) :
    rbacResolvePermMask (rbacRegisterRole eng name roleId priority).2 roleName budget =
      rbacResolvePermMask eng roleName budget := by
  unfold rbacRegisterRole
  split
  · rfl
  · split
    · rfl
    · exact rbacResolvePermMask_append rfl rfl roleName budget

theorem rbacRoleAddParent_cases (eng : RbacEngine) (roleName parentRoleName : CStr) :
    ((rbacRoleAddParent eng roleName parentRoleName).1 ≠ 0 ∧
        (rbacRoleAddParent eng roleName parentRoleName).2 = eng) ∨
      ((rbacRoleAddParent eng roleName parentRoleName).1 = 0 ∧
        (rbacRoleAddParent eng roleName parentRoleName).2.users = eng.users) := by
  unfold rbacRoleAddParent
  split
  · split
    · split
      · exact .inl ⟨by simp, rfl⟩
      · exact .inr ⟨rfl, rfl⟩
    · exact .inl ⟨by simp, rfl⟩
  · exact .inl ⟨by simp, rfl⟩

theorem rbacRoleGrantPermission_cases (eng : RbacEngine) (roleName : CStr) (permMask : UInt64) :
    ((rbacRoleGrantPermission eng roleName permMask).1 ≠ 0 ∧
        (rbacRoleGrantPermission eng roleName permMask).2 = eng) ∨
      ((rbacRoleGrantPermission eng roleName permMask).1 = 0 ∧
        (rbacRoleGrantPermission eng roleName permMask).2.users = eng.users) := by
  unfold rbacRoleGrantPermission
  split
  · exact .inr ⟨rfl, rfl⟩
  · exact .inl ⟨by simp, rfl⟩

theorem rbacCreateUser_cases (eng : RbacEngine) {user : CStr}
    (hfit : user.length < rbacMaxUsernameLen) :
    ((rbacCreateUser eng user).1 ≠ 0 ∧ (rbacCreateUser eng user).2 = eng) ∨
      (rbacFindUser eng user = none ∧
        rbacCreateUser eng user =
          (0, { eng with users := eng.users ++ [⟨user, [], 0, false⟩] })) := by
  unfold rbacCreateUser
  split
  · exact .inl ⟨by simp, rfl⟩
  · split
    · exact .inl ⟨by simp, rfl⟩
    · next hnew =>
        have hcopy : strncpy user (rbacMaxUsernameLen - 1) = user := strncpy_of_le (by omega)
        exact .inr ⟨by simpa [rbacFindUser] using hnew, by rw [hcopy]⟩

theorem rbacAssignRole_cases (eng : RbacEngine) (user : CStr) {roleName : CStr}
    (hfit : roleName.length < rbacMaxRolenameLen) :
    ((rbacAssignRole eng user roleName).1 ≠ 0 ∧ (rbacAssignRole eng user roleName).2 = eng) ∨
      ∃ found, rbacFindUser eng user = some found ∧
        rbacAssignRole eng user roleName = (0, setUser eng user (addRoleName roleName)) := by
  have hcopy : strncpy roleName (rbacMaxRolenameLen - 1) = roleName := strncpy_of_le (by omega)
  unfold rbacAssignRole
  split
  · exact .inl ⟨by simp, rfl⟩
  · next found hfound =>
      split
      · exact .inl ⟨by simp, rfl⟩
      · split
        · exact .inl ⟨by simp, rfl⟩
        · exact .inr ⟨found, hfound, by rw [hcopy]⟩

theorem rbacRemoveRole_cases (eng : RbacEngine) (user roleName : CStr) :
    ((rbacRemoveRole eng user roleName).1 ≠ 0 ∧ (rbacRemoveRole eng user roleName).2 = eng) ∨
      ∃ found, rbacFindUser eng user = some found ∧ roleName ∈ found.roleNames ∧
        rbacRemoveRole eng user roleName = (0, setUser eng user (dropRoleName roleName)) := by
  unfold rbacRemoveRole
  split
  · exact .inl ⟨by simp, rfl⟩
  · next found hfound =>
      split
      · next hmem => exact .inr ⟨found, hfound, by simpa using hmem, rfl⟩
      · exact .inl ⟨by simp, rfl⟩

/-- A query answers from the cache, or resolves the roles and fills it. -/
theorem rbacGetEffectivePermissions_cases (eng : RbacEngine) (user : CStr) :
    (rbacFindUser eng user = none ∧ rbacGetEffectivePermissions eng user = (0, eng)) ∨
      ∃ found, rbacFindUser eng user = some found ∧
        ((found.cacheValid = true ∧
            rbacGetEffectivePermissions eng user = (found.cachedPermissionMask, eng)) ∨
          (found.cacheValid = false ∧
            rbacGetEffectivePermissions eng user =
              (resolveUser eng found, setUser eng user (fillCache (resolveUser eng found))))) := by
  unfold rbacGetEffectivePermissions
  split
  · next hnone => exact .inl ⟨hnone, rfl⟩
  · next found hfound =>
      refine .inr ⟨found, hfound, ?_⟩
      split
      · next hvalid => exact .inl ⟨hvalid, rfl⟩
      · next hvalid => exact .inr ⟨by simpa using hvalid, rfl⟩

theorem rbacCheckPermission_snd (eng : RbacEngine) (username : CStr) (requiredPerm : UInt64) :
    (rbacCheckPermission eng username requiredPerm).2 =
      (rbacGetEffectivePermissions eng username).2 := by
  simp only [rbacCheckPermission]
  split
  · rfl
  · split <;> rfl

/-! ## What a run leaves in the role list of a user -/

def rolesOf (eng : RbacEngine) (username : CStr) : List CStr :=
  match rbacFindUser eng username with
  | some user => user.roleNames
  | none => []

theorem rolesOf_of_users {eng eng' : RbacEngine} (h : eng'.users = eng.users)
    (username : CStr) : rolesOf eng' username = rolesOf eng username := by
  rw [rolesOf, rbacFindUser, h, rolesOf, rbacFindUser]

theorem rolesOf_setUser_of_ne (eng : RbacEngine) {username other : CStr}
    (hne : other ≠ username) {f : RbacUser → RbacUser}
    (hf : ∀ user, (f user).username = user.username) :
    rolesOf (setUser eng other f) username = rolesOf eng username := by
  rw [rolesOf, rbacFindUser_setUser_of_ne eng hne hf, rolesOf]

theorem rolesOf_setUser_self {eng : RbacEngine} {username : CStr} {found : RbacUser}
    (hfound : rbacFindUser eng username = some found) {f : RbacUser → RbacUser}
    (hf : ∀ user, (f user).username = user.username) :
    rolesOf (setUser eng username f) username = (f found).roleNames := by
  rw [rolesOf, rbacFindUser_setUser_self eng username hf, hfound]
  rfl

theorem rolesOf_of_found {eng : RbacEngine} {username : CStr} {found : RbacUser}
    (hfound : rbacFindUser eng username = some found) :
    rolesOf eng username = found.roleNames := by
  rw [rolesOf, hfound]

theorem rolesOf_createUser {eng : RbacEngine} {user : CStr}
    (hfit : user.length < rbacMaxUsernameLen) (username : CStr) :
    rolesOf (rbacCreateUser eng user).2 username = rolesOf eng username := by
  obtain ⟨-, h⟩ | ⟨hnone, h⟩ := rbacCreateUser_cases eng hfit
  · rw [h]
  · rw [h, rolesOf, rolesOf, rbacFindUser_append]
    by_cases huser : user = username
    · subst huser
      simp [hnone]
    · simp [huser]

theorem rolesOf_getEffective (eng : RbacEngine) (user username : CStr) :
    rolesOf (rbacGetEffectivePermissions eng user).2 username = rolesOf eng username := by
  obtain ⟨-, h⟩ | ⟨found, hfound, ⟨-, h⟩ | ⟨-, h⟩⟩ := rbacGetEffectivePermissions_cases eng user
  · rw [h]
  · rw [h]
  · rw [h]
    by_cases huser : user = username
    · subst huser
      rw [rolesOf_setUser_self hfound fillCache_username, rolesOf_of_found hfound]
      rfl
    · exact rolesOf_setUser_of_ne eng huser fillCache_username

theorem count_rolesOf_assignRole (username roleName : CStr) (eng : RbacEngine)
    (user : CStr) {name : CStr} (hfit : name.length < rbacMaxRolenameLen) :
    (rolesOf (rbacAssignRole eng user name).2 username).count roleName =
      (rolesOf eng username).count roleName +
        (if assigns username roleName eng (.assignRole user name) then 1 else 0) := by
  obtain ⟨hcode, h⟩ | ⟨found, hfound, h⟩ := rbacAssignRole_cases eng user hfit
  · have hno : assigns username roleName eng (.assignRole user name) = false := by
      simp only [assigns, Op.assignRole.injEq, decide_eq_false_iff_not]
      rintro ⟨⟨rfl, rfl⟩, hzero⟩
      exact hcode hzero
    simp [h, hno]
  · by_cases huser : user = username
    · subst huser
      rw [h, rolesOf_setUser_self hfound addRoleName_username, rolesOf_of_found hfound,
        addRoleName, List.count_append, List.count_singleton]
      by_cases hname : name = roleName
      · subst hname
        simp [assigns, h]
      · simp [assigns, hname]
    · rw [h, rolesOf_setUser_of_ne eng huser addRoleName_username]
      simp [assigns, huser]

theorem count_rolesOf_removeRole (username roleName : CStr) (eng : RbacEngine)
    (user name : CStr) :
    (rolesOf (rbacRemoveRole eng user name).2 username).count roleName +
        (if removes username roleName eng (.removeRole user name) then 1 else 0) =
      (rolesOf eng username).count roleName := by
  obtain ⟨hcode, h⟩ | ⟨found, hfound, hmem, h⟩ := rbacRemoveRole_cases eng user name
  · have hno : removes username roleName eng (.removeRole user name) = false := by
      simp only [removes, Op.removeRole.injEq, decide_eq_false_iff_not]
      rintro ⟨⟨rfl, rfl⟩, hzero⟩
      exact hcode hzero
    simp [h, hno]
  · by_cases huser : user = username
    · subst huser
      rw [h, rolesOf_setUser_self hfound dropRoleName_username, rolesOf_of_found hfound,
        dropRoleName]
      by_cases hname : name = roleName
      · subst hname
        have hpos : 0 < found.roleNames.count name := List.count_pos_iff.mpr hmem
        simp [removes, h, List.count_erase_self]
        omega
      · simp [removes, hname, List.count_erase_of_ne (Ne.symm hname)]
    · rw [h, rolesOf_setUser_of_ne eng huser dropRoleName_username]
      simp [removes, huser]

/-- One call changes the number of copies of a role by its own success. -/
theorem count_rolesOf_step (username roleName : CStr) (eng : RbacEngine) (op : Op)
    (hfit : NamesFit op) :
    (rolesOf (step eng op) username).count roleName +
        (if removes username roleName eng op then 1 else 0) =
      (rolesOf eng username).count roleName +
        (if assigns username roleName eng op then 1 else 0) := by
  cases op with
  | registerRole name roleId priority =>
      simp [removes, assigns, step,
        rolesOf_of_users (users_registerRole eng name roleId priority)]
  | roleAddParent child parent =>
      obtain ⟨-, h⟩ | ⟨-, h⟩ := rbacRoleAddParent_cases eng child parent
      · simp [removes, assigns, step, h]
      · simp [removes, assigns, step, rolesOf_of_users h]
  | roleGrantPermission name permMask =>
      obtain ⟨-, h⟩ | ⟨-, h⟩ := rbacRoleGrantPermission_cases eng name permMask
      · simp [removes, assigns, step, h]
      · simp [removes, assigns, step, rolesOf_of_users h]
  | createUser user => simp [removes, assigns, step, rolesOf_createUser hfit]
  | assignRole user name =>
      rw [step, count_rolesOf_assignRole username roleName eng user hfit.2]
      simp [removes]
  | removeRole user name =>
      rw [step, count_rolesOf_removeRole username roleName eng user name]
      simp [assigns]
  | getEffectivePermissions user => simp [removes, assigns, step, rolesOf_getEffective]
  | checkPermission user requiredPerm =>
      simp [removes, assigns, step, rbacCheckPermission_snd, rolesOf_getEffective]

/-- After a run the role list holds each role as often as it was assigned and not
removed. -/
theorem mem_rolesOf_run {ops : List Op} (hfit : ∀ op ∈ ops, NamesFit op)
    (username roleName : CStr) :
    roleName ∈ rolesOf (run step rbacEngineInit ops) username ↔ Holds ops username roleName := by
  have hbalance := run_balance step (f := fun eng => (rolesOf eng username).count roleName)
    (count_rolesOf_step username roleName)
    (always_of_forall step (fun _ _ h => h) hfit rbacEngineInit)
  have hinit : (rolesOf rbacEngineInit username).count roleName = 0 := rfl
  rw [← List.count_pos_iff, Holds]
  omega

/-! ## The cache -/

def CacheSound (username : CStr) (eng : RbacEngine) (h : CacheHistory) : Prop :=
  ∀ user, rbacFindUser eng username = some user → user.cacheValid = true →
    h.queried = true ∧ (h.overtaken = false → user.cachedPermissionMask = resolveUser eng user)

theorem CacheSound.congr {username : CStr} {eng eng' : RbacEngine} {h : CacheHistory}
    (hsound : CacheSound username eng h)
    (hfind : rbacFindUser eng' username = rbacFindUser eng username)
    (hresolve : ∀ user, resolveUser eng' user = resolveUser eng user) :
    CacheSound username eng' h := by
  intro user huser hvalid
  rw [hfind] at huser
  rw [hresolve user]
  exact hsound user huser hvalid

/-- Once the history records a link or a grant after a query, nothing is promised
about the cached mask. -/
theorem CacheSound.overtake {username : CStr} {eng eng' : RbacEngine} {h : CacheHistory}
    (hsound : CacheSound username eng h) (husers : eng'.users = eng.users) :
    CacheSound username eng' { h with overtaken := h.overtaken || h.queried } := by
  intro user huser hvalid
  rw [rbacFindUser, husers] at huser
  have hqueried := (hsound user huser hvalid).1
  exact ⟨hqueried, by simp [hqueried]⟩

theorem CacheSound.setUser_of_ne {username other : CStr} {eng : RbacEngine} {h : CacheHistory}
    (hsound : CacheSound username eng h) (hne : other ≠ username) {f : RbacUser → RbacUser}
    (hf : ∀ user, (f user).username = user.username) :
    CacheSound username (setUser eng other f) h :=
  hsound.congr (rbacFindUser_setUser_of_ne eng hne hf) (resolveUser_congr rfl)

theorem cacheSound_of_invalid {username : CStr} {eng : RbacEngine} {f : RbacUser → RbacUser}
    (hf : ∀ user, (f user).username = user.username)
    (hinvalid : ∀ user, (f user).cacheValid = false) (h : CacheHistory) :
    CacheSound username (setUser eng username f) h := by
  intro user huser hvalid
  rw [rbacFindUser_setUser_self eng username hf] at huser
  obtain ⟨found, -, rfl⟩ := Option.map_eq_some_iff.mp huser
  simp [hinvalid] at hvalid

theorem CacheSound.getEffective {username user : CStr} {eng : RbacEngine} {h : CacheHistory}
    (hsound : CacheSound username eng h) :
    CacheSound username (rbacGetEffectivePermissions eng user).2
      (if user = username then { h with queried := true } else h) := by
  by_cases huser : user = username
  · subst huser
    rw [if_pos rfl]
    obtain ⟨hnone, heq⟩ | ⟨found, hfound, ⟨hvalid, heq⟩ | ⟨hvalid, heq⟩⟩ :=
      rbacGetEffectivePermissions_cases eng user
    · intro found hfound
      rw [heq, hnone] at hfound
      simp at hfound
    · rw [heq]
      intro found' hfound' hvalid'
      exact ⟨rfl, (hsound found' hfound' hvalid').2⟩
    · rw [heq]
      intro found' hfound' _
      rw [rbacFindUser_setUser_self eng user fillCache_username, hfound] at hfound'
      obtain rfl := Option.some.inj hfound'
      have hroles : (setUser eng user (fillCache (resolveUser eng found))).roles = eng.roles := rfl
      refine ⟨rfl, fun _ => ?_⟩
      rw [resolveUser_congr hroles]
      rfl
  · rw [if_neg huser]
    obtain ⟨-, heq⟩ | ⟨found, -, ⟨-, heq⟩ | ⟨-, heq⟩⟩ :=
      rbacGetEffectivePermissions_cases eng user
    · rw [heq]
      exact hsound
    · rw [heq]
      exact hsound
    · rw [heq]
      exact hsound.setUser_of_ne huser fillCache_username

theorem CacheSound.createUser {username user : CStr} {eng : RbacEngine} {h : CacheHistory}
    (hsound : CacheSound username eng h) (hfit : user.length < rbacMaxUsernameLen) :
    CacheSound username (rbacCreateUser eng user).2
      (if user = username ∧ (rbacCreateUser eng user).1 = 0 then ⟨false, false⟩ else h) := by
  obtain ⟨hcode, heq⟩ | ⟨hnone, heq⟩ := rbacCreateUser_cases eng hfit
  · rw [heq, if_neg fun hc => hcode hc.2]
    exact hsound
  · rw [heq]
    by_cases huser : user = username
    · subst huser
      intro found hfound hvalid
      rw [rbacFindUser_append, hnone] at hfound
      simp only [if_pos, Option.none_or, Option.some.injEq] at hfound
      subst hfound
      simp at hvalid
    · rw [if_neg fun hc => huser hc.1]
      refine hsound.congr ?_ (resolveUser_congr rfl)
      simp [rbacFindUser_append, huser]

theorem cacheSound_step (username : CStr) (eng : RbacEngine) (h : CacheHistory) (op : Op)
    (hsound : CacheSound username eng h) (hfit : NamesFit op) :
    CacheSound username (step eng op) (cacheHistoryStep username h eng op) := by
  cases op with
  | registerRole name roleId priority =>
      refine hsound.congr ?_ fun user => ?_
      · rw [rbacFindUser, step, users_registerRole, rbacFindUser]
      · simp only [step, resolveUser, resolve_registerRole]
  | roleAddParent child parent =>
      obtain ⟨hcode, heq⟩ | ⟨hcode, husers⟩ := rbacRoleAddParent_cases eng child parent
      · rw [step, cacheHistoryStep, heq, if_neg hcode]
        exact hsound
      · rw [step, cacheHistoryStep, if_pos hcode]
        exact hsound.overtake husers
  | roleGrantPermission name permMask =>
      obtain ⟨hcode, heq⟩ | ⟨hcode, husers⟩ := rbacRoleGrantPermission_cases eng name permMask
      · rw [step, cacheHistoryStep, heq, if_neg hcode]
        exact hsound
      · rw [step, cacheHistoryStep, if_pos hcode]
        exact hsound.overtake husers
  | createUser user => exact hsound.createUser hfit
  | assignRole user name =>
      obtain ⟨hcode, heq⟩ | ⟨found, -, heq⟩ := rbacAssignRole_cases eng user hfit.2
      · rw [step, cacheHistoryStep, heq, if_neg fun hc => hcode hc.2]
        exact hsound
      · rw [step, cacheHistoryStep, heq]
        by_cases huser : user = username
        · subst huser
          exact cacheSound_of_invalid addRoleName_username (fun _ => rfl) _
        · rw [if_neg fun hc => huser hc.1]
          exact hsound.setUser_of_ne huser addRoleName_username
  | removeRole user name =>
      obtain ⟨hcode, heq⟩ | ⟨found, -, -, heq⟩ := rbacRemoveRole_cases eng user name
      · rw [step, cacheHistoryStep, heq, if_neg fun hc => hcode hc.2]
        exact hsound
      · rw [step, cacheHistoryStep, heq]
        by_cases huser : user = username
        · subst huser
          exact cacheSound_of_invalid dropRoleName_username (fun _ => rfl) _
        · rw [if_neg fun hc => huser hc.1]
          exact hsound.setUser_of_ne huser dropRoleName_username
  | getEffectivePermissions user => exact hsound.getEffective
  | checkPermission user requiredPerm =>
      rw [step, rbacCheckPermission_snd]
      exact hsound.getEffective

/-! ## Decisions -/

/-- Unless a parent link or a grant came after the answer was cached, the effective
permissions of a user are those of the roles at most ten parent links away from a
role that was assigned to the user more often than removed. -/
theorem effective_permissions_reflect_policy {ops : List Op}
    (hfit : ∀ op ∈ ops, NamesFit op) {username : CStr}
    (hfresh : cacheOvertaken ops username = false) (i : Nat) :
    permits (rbacGetEffectivePermissions (run step rbacEngineInit ops) username).1 i = true ↔
      ∃ roleName r, Holds ops username roleName ∧
        ReachWithin (ParentLink (run step rbacEngineInit ops)) 10 roleName r ∧
        permits (maskOf (run step rbacEngineInit ops) r) i = true := by
  have hinit : CacheSound username rbacEngineInit ⟨false, false⟩ := by
    intro user huser
    simp [rbacFindUser, rbacEngineInit] at huser
  have hsound := observe_invariant step (cacheSound_step username) hinit
    (always_of_forall step (fun _ _ h => h) hfit rbacEngineInit)
  simp only [← mem_rolesOf_run hfit]
  generalize run step rbacEngineInit ops = eng at hsound ⊢
  obtain ⟨hnone, heq⟩ | ⟨found, hfound, hcases⟩ := rbacGetEffectivePermissions_cases eng username
  · simp [heq, rolesOf, hnone, permits_zero]
  · have hanswer : (rbacGetEffectivePermissions eng username).1 = resolveUser eng found := by
      obtain ⟨hvalid, heq⟩ | ⟨-, heq⟩ := hcases
      · rw [heq]
        exact (hsound found hfound hvalid).2 hfresh
      · rw [heq]
    rw [hanswer, permits_resolveUser, rolesOf_of_found hfound]
    simp only [exists_and_left]

/-- The default hierarchy in small: `u` may edit, and an editor may also view. -/
def editorRun : List Op :=
  [.registerRole (lit "VIEWER") .viewer 1, .registerRole (lit "EDITOR") .editor 2,
    .roleGrantPermission (lit "VIEWER") 1, .roleGrantPermission (lit "EDITOR") 16,
    .roleAddParent (lit "EDITOR") (lit "VIEWER"), .createUser (lit "u"),
    .assignRole (lit "u") (lit "EDITOR"), .checkPermission (lit "u") 1]

theorem effective_permissions_reflect_policy_editor :
    (∀ op ∈ editorRun, NamesFit op) ∧ cacheOvertaken editorRun (lit "u") = false ∧
      (permits (rbacGetEffectivePermissions (run step rbacEngineInit editorRun) (lit "u")).1 0 =
          true ↔
        ∃ roleName r, Holds editorRun (lit "u") roleName ∧
          ReachWithin (ParentLink (run step rbacEngineInit editorRun)) 10 roleName r ∧
          permits (maskOf (run step rbacEngineInit editorRun) r) 0 = true) :=
  ⟨by decide, by decide,
    effective_permissions_reflect_policy (by decide) (by decide) 0⟩

def heldSinceAssignment (ops : List Op) (username roleName : CStr) : Bool :=
  observe step
    (fun held eng op =>
      if assigns username roleName eng op then true
      else if removes username roleName eng op then false
      else held)
    false rbacEngineInit ops

/-- Every role reachable from a role held since its last assignment, through any
number of links, counts. -/
def ReflectsWholePolicy (ops : List Op) (username : CStr) : Prop :=
  ∀ i, permits (rbacGetEffectivePermissions (run step rbacEngineInit ops) username).1 i = true ↔
    ∃ roleName r, heldSinceAssignment ops username roleName = true ∧
      Relation.ReflTransGen (ParentLink (run step rbacEngineInit ops)) roleName r ∧
      permits (maskOf (run step rbacEngineInit ops) r) i = true

/-- Twelve roles in a row; the last one has permission 0. -/
def longChain : List Op :=
  (List.range 12).map (fun k => .registerRole [UInt8.ofNat (97 + k)] .custom 0) ++
    (List.range 11).map (fun k =>
      .roleAddParent [UInt8.ofNat (97 + k)] [UInt8.ofNat (98 + k)]) ++
    [.roleGrantPermission (lit "l") 1, .createUser (lit "u"), .assignRole (lit "u") (lit "a")]

def assignedTwice : List Op :=
  [.registerRole (lit "a") .custom 0, .roleGrantPermission (lit "a") 1, .createUser (lit "u"),
    .assignRole (lit "u") (lit "a"), .assignRole (lit "u") (lit "a"),
    .removeRole (lit "u") (lit "a")]

def grantedLate : List Op :=
  [.registerRole (lit "a") .custom 0, .createUser (lit "u"), .assignRole (lit "u") (lit "a"),
    .getEffectivePermissions (lit "u"), .roleGrantPermission (lit "a") 1]

theorem parentLink_of_any {eng : RbacEngine} {roleName parent : CStr}
    (h : (rbacFindRole eng roleName).any (·.parentRoles.contains parent) = true) :
    ParentLink eng roleName parent := by
  obtain ⟨role, hrole, hmem⟩ := (Option.any_eq_true _ _).mp h
  exact ⟨role, hrole, by simpa using hmem⟩

theorem longChain_not_reflected : ¬ReflectsWholePolicy longChain (lit "u") := by
  intro h
  have hanswer : permits (rbacGetEffectivePermissions (run step rbacEngineInit longChain)
      (lit "u")).1 0 = false := by decide
  have hlink : ∀ k < 11, ParentLink (run step rbacEngineInit longChain)
      [UInt8.ofNat (97 + k)] [UInt8.ofNat (97 + (k + 1))] := by
    intro k hk
    have hall : ∀ k < 11, (rbacFindRole (run step rbacEngineInit longChain)
        [UInt8.ofNat (97 + k)]).any
          (·.parentRoles.contains [UInt8.ofNat (97 + (k + 1))]) = true := by decide
    exact parentLink_of_any (hall k hk)
  have hreach : ∀ k ≤ 11, Relation.ReflTransGen (ParentLink (run step rbacEngineInit longChain))
      [UInt8.ofNat 97] [UInt8.ofNat (97 + k)] := by
    intro k
    induction k with
    | zero => exact fun _ => .refl
    | succ k ih => exact fun hk => (ih (by omega)).tail (hlink k (by omega))
  have hpolicy := (h 0).mpr ⟨[UInt8.ofNat 97], [UInt8.ofNat (97 + 11)], by decide,
    hreach 11 (le_refl _), by decide⟩
  rw [hanswer] at hpolicy
  exact absurd hpolicy (by decide)

theorem assignedTwice_not_reflected : ¬ReflectsWholePolicy assignedTwice (lit "u") := by
  intro h
  obtain ⟨roleName, r, hheld, -, -⟩ := (h 0).mp (by decide)
  have hnone : heldSinceAssignment assignedTwice (lit "u") roleName = false := by
    by_cases hname : lit "a" = roleName
    · subst hname
      decide
    · simp [heldSinceAssignment, assignedTwice, observe, assigns, removes, hname]
  rw [hnone] at hheld
  exact absurd hheld (by decide)

theorem grantedLate_not_reflected : ¬ReflectsWholePolicy grantedLate (lit "u") := by
  intro h
  have hanswer : permits (rbacGetEffectivePermissions (run step rbacEngineInit grantedLate)
      (lit "u")).1 0 = false := by decide
  have hpolicy := (h 0).mpr ⟨lit "a", lit "a", by decide, .refl, by decide⟩
  rw [hanswer] at hpolicy
  exact absurd hpolicy (by decide)

/-- Three runs whose answer is not the whole policy: an inheritance chain of eleven
links, a role assigned twice and removed once, and a grant after a query. -/
theorem whole_policy_not_reflected :
    ((∀ op ∈ longChain, NamesFit op) ∧ ¬ReflectsWholePolicy longChain (lit "u")) ∧
      ((∀ op ∈ assignedTwice, NamesFit op) ∧ ¬ReflectsWholePolicy assignedTwice (lit "u")) ∧
      (∀ op ∈ grantedLate, NamesFit op) ∧ ¬ReflectsWholePolicy grantedLate (lit "u") :=
  ⟨⟨by decide, longChain_not_reflected⟩, ⟨by decide, assignedTwice_not_reflected⟩,
    by decide, grantedLate_not_reflected⟩

end MiniBackend.Auth.Proofs.RbacPolicy
