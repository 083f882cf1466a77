import MiniBackend.Lib.CString
import MiniBackend.Lib.CArray
import MiniBackend.Lib.Runs

/-!
# `rbac_engine.c`

Roles with permission masks and parent roles, users with assigned roles and a
cached permission mask.  The three counted arrays of the engine are the lists of
their used entries.  The permission registry and the two time stamps of a user
are read by none of the functions below and are left out.
-/

namespace MiniBackend.Auth.Rbac

open MiniBackend.Lib.CString MiniBackend.Lib.CArray

def rbacMaxUsers : Nat := 512
def rbacMaxRoles : Nat := 64
def rbacMaxUsernameLen : Nat := 128
def rbacMaxRolenameLen : Nat := 64
def rbacMaxParentRoles : Nat := 16

inductive RbacRoleId
  | none | admin | moderator | editor | viewer | custom
deriving DecidableEq

structure RbacRole where
  name : CStr
  roleId : RbacRoleId
  permissionMask : UInt64
  parentRoles : List CStr
  priority : Int
deriving DecidableEq

structure RbacUser where
  username : CStr
  roleNames : List CStr
  cachedPermissionMask : UInt64
  cacheValid : Bool
deriving DecidableEq

structure RbacEngine where
  roles : List RbacRole
  users : List RbacUser
deriving DecidableEq

def rbacEngineInit : RbacEngine := ⟨[], []⟩

def rbacRegisterRole (eng : RbacEngine) (name : CStr) (roleId : RbacRoleId) (priority : Int) :
    Int × RbacEngine :=
  if rbacMaxRoles ≤ eng.roles.length then (-1, eng)
  else if eng.roles.any (·.name == name) then (-2, eng)
  else
    (0, { eng with roles := eng.roles ++
      [⟨strncpy name (rbacMaxRolenameLen - 1), roleId, 0, [], priority⟩] })

/-- The scan keeps the last match for each of the two names. -/
def rbacRoleAddParent (eng : RbacEngine) (roleName parentRoleName : CStr) :
    Int × RbacEngine :=
  match lastIndex (·.name == roleName) eng.roles,
    lastIndex (·.name == parentRoleName) eng.roles with
  | some foundRole, some _ =>
      match eng.roles[foundRole]? with
      | some role =>
          if rbacMaxParentRoles ≤ role.parentRoles.length then (-2, eng)
          else
            let parentRoles := role.parentRoles ++
              [strncpy parentRoleName (rbacMaxRolenameLen - 1)]
            (0, { eng with roles := eng.roles.set foundRole { role with parentRoles } })
      | none => (-1, eng)
  | _, _ => (-1, eng)

def rbacRoleGrantPermission (eng : RbacEngine) (roleName : CStr) (permMask : UInt64) :
    Int × RbacEngine :=
  if eng.roles.any (·.name == roleName) then
    let grant := fun role : RbacRole =>
      { role with permissionMask := role.permissionMask ||| permMask }
    (0, { eng with roles := updateFirst (·.name == roleName) grant eng.roles })
  else (-1, eng)

def rbacCreateUser (eng : RbacEngine) (username : CStr) : Int × RbacEngine :=
  if rbacMaxUsers ≤ eng.users.length then (-1, eng)
  else if eng.users.any (·.username == username) then (-2, eng)
  else
    (0, { eng with users := eng.users ++
      [⟨strncpy username (rbacMaxUsernameLen - 1), [], 0, false⟩] })

def rbacFindUser (eng : RbacEngine) (username : CStr) : Option RbacUser :=
  eng.users.find? (·.username == username)

def rbacFindRole (eng : RbacEngine) (roleName : CStr) : Option RbacRole :=
  eng.roles.find? (·.name == roleName)

/-- Write through the pointer that `rbac_find_user` returned. -/
def setUser (eng : RbacEngine) (username : CStr) (f : RbacUser → RbacUser) : RbacEngine :=
  { eng with users := updateFirst (·.username == username) f eng.users }

def addRoleName (roleName : CStr) (user : RbacUser) : RbacUser :=
  { user with roleNames := user.roleNames ++ [roleName], cacheValid := false }

/-- The shift copies each later name one place down: the first occurrence goes. -/
def dropRoleName (roleName : CStr) (user : RbacUser) : RbacUser :=
  { user with roleNames := user.roleNames.erase roleName, cacheValid := false }

def fillCache (mask : UInt64) (user : RbacUser) : RbacUser :=
  { user with cachedPermissionMask := mask, cacheValid := true }

def rbacAssignRole (eng : RbacEngine) (username roleName : CStr) : Int × RbacEngine :=
  match rbacFindUser eng username with
  | none => (-1, eng)
  | some user =>
      match rbacFindRole eng roleName with
      | none => (-2, eng)
      | some _ =>
          if rbacMaxRoles ≤ user.roleNames.length then (-3, eng)
          else
            (0, setUser eng username (addRoleName (strncpy roleName (rbacMaxRolenameLen - 1))))

def rbacRemoveRole (eng : RbacEngine) (username roleName : CStr) : Int × RbacEngine :=
  match rbacFindUser eng username with
  | none => (-1, eng)
  | some user =>
      if user.roleNames.contains roleName then
        (0, setUser eng username (dropRoleName roleName))
      else (-2, eng)

/-- `budget` is `11 - depth`: the call at depth 11 returns at once. -/
def rbacResolvePermMask (eng : RbacEngine) (roleName : CStr) (budget : Nat) : UInt64 :=
  match rbacFindRole eng roleName, budget with
  | none, _ => 0
  | some _, 0 => 0
  | some role, budget + 1 =>
      role.parentRoles.foldl
        (fun mask parent => mask ||| rbacResolvePermMask eng parent budget) role.permissionMask

/-- The loop over the user's roles, each resolved from depth 0. -/
def resolveUser (eng : RbacEngine) (user : RbacUser) : UInt64 :=
  user.roleNames.foldl (fun mask name => mask ||| rbacResolvePermMask eng name 11) 0

def rbacGetEffectivePermissions (eng : RbacEngine) (username : CStr) : UInt64 × RbacEngine :=
  match rbacFindUser eng username with
  | none => (0, eng)
  | some user =>
      if user.cacheValid then (user.cachedPermissionMask, eng)
      else
        let mask := resolveUser eng user
        (mask, setUser eng username (fillCache mask))

def rbacCheckPermission (eng : RbacEngine) (username : CStr) (requiredPerm : UInt64) :
    Int × RbacEngine :=
  let (effective, eng') := rbacGetEffectivePermissions eng username
  if requiredPerm = 0 then (1, eng')
  else if effective &&& requiredPerm = requiredPerm then (1, eng') else (0, eng')

/-! ## Runs -/

/-- The calls a client makes. -/
inductive Op
  | registerRole (name : CStr) (roleId : RbacRoleId) (priority : Int)
  | roleAddParent (roleName parentRoleName : CStr)
  | roleGrantPermission (roleName : CStr) (permMask : UInt64)
  | createUser (username : CStr)
  | assignRole (username roleName : CStr)
  | removeRole (username roleName : CStr)
  | getEffectivePermissions (username : CStr)
  | checkPermission (username : CStr) (requiredPerm : UInt64)
deriving DecidableEq

/-- The engine after one call. -/
def step (eng : RbacEngine) : Op → RbacEngine
  | .registerRole name roleId priority => (rbacRegisterRole eng name roleId priority).2
  | .roleAddParent roleName parentRoleName => (rbacRoleAddParent eng roleName parentRoleName).2
  | .roleGrantPermission roleName permMask => (rbacRoleGrantPermission eng roleName permMask).2
  | .createUser username => (rbacCreateUser eng username).2
  | .assignRole username roleName => (rbacAssignRole eng username roleName).2
  | .removeRole username roleName => (rbacRemoveRole eng username roleName).2
  | .getEffectivePermissions username => (rbacGetEffectivePermissions eng username).2
  | .checkPermission username requiredPerm => (rbacCheckPermission eng username requiredPerm).2

end MiniBackend.Auth.Rbac
