import MiniBackend.Lib.CString

/-!
# `audit_log.c`

The log with its chain of hashes.  What a hash is is a parameter: in the program it is the text
of the 64-bit FNV-1a hash, which is shorter than its fields.  `none` stands for the empty text
of a log without hashes.
-/

namespace MiniBackend.Auth.Audit

open MiniBackend.Lib.CString

def auditMaxEvents : Nat := 4096
def auditMaxMessageLen : Nat := 512
def auditMaxSubjectLen : Nat := 128
def auditMaxObjectLen : Nat := 256
def auditMaxActionLen : Nat := 128
def auditMaxSourceIpLen : Nat := 64
def auditMaxRecordBufLen : Nat := 2048

inductive AuditSeverity
  | debug
  | info
  | warning
  | error
  | critical
deriving DecidableEq

inductive AuditEventType
  | loginSuccess
  | loginFailure
  | logout
  | accessGranted
  | accessDenied
  | permissionChange
  | roleAssignment
  | tokenCreated
  | tokenRevoked
  | sessionCreated
  | sessionExpired
  | configChange
  | rateLimitHit
  | csrfValidation
  | xssDetected
  | custom
deriving DecidableEq

def AuditSeverity.code : AuditSeverity → Nat
  | .debug => 0
  | .info => 1
  | .warning => 2
  | .error => 3
  | .critical => 4

def AuditEventType.code : AuditEventType → Nat
  | .loginSuccess => 0
  | .loginFailure => 1
  | .logout => 2
  | .accessGranted => 3
  | .accessDenied => 4
  | .permissionChange => 5
  | .roleAssignment => 6
  | .tokenCreated => 7
  | .tokenRevoked => 8
  | .sessionCreated => 9
  | .sessionExpired => 10
  | .configChange => 11
  | .rateLimitHit => 12
  | .csrfValidation => 13
  | .xssDetected => 14
  | .custom => 15

/-- `record_crc`, a checksum of the record's bytes in memory, is never read. -/
structure AuditRecord (H : Type) where
  eventId : UInt64
  eventType : AuditEventType
  severity : AuditSeverity
  subject : CStr
  object : CStr
  action : CStr
  message : CStr
  sourceIp : CStr
  prevHashHex : Option H
  currHashHex : Option H
  timestamp : Int
  outcome : Int
deriving DecidableEq

/-- `records` is the first `count` entries of its array. -/
structure AuditLog (H : Type) where
  records : List (AuditRecord H)
  totalEvents : Nat
  nextEventId : UInt64
  genesisHash : H
  tampered : Bool
  integrityEnabled : Bool

/-- The genesis hash of the program. -/
def genesisHex : CStr := lit "0000000000000000"

variable {H : Type}

/-- The text that a record is hashed by. -/
def recordText (record : AuditRecord H) : CStr :=
  decimal record.eventId.toNat ++ lit "|" ++ decimal record.eventType.code ++ lit "|" ++
    decimal record.severity.code ++ lit "|" ++ record.subject ++ lit "|" ++ record.object ++
    lit "|" ++ record.action ++ lit "|" ++ record.message ++ lit "|" ++ record.sourceIp ++
    lit "|" ++ decimalInt record.timestamp ++ lit "|" ++ decimalInt record.outcome

def auditComputeRecordHash (hash : List UInt8 → H) (record : AuditRecord H) : H :=
  hash (snprintf (recordText record) auditMaxRecordBufLen)

def auditLogInit (genesis : H) (enableIntegrity : Bool) : AuditLog H :=
  ⟨[], 0, 1, genesis, false, enableIntegrity⟩

/-- A field that is given, or the zeroed one. -/
def field (text : Option CStr) (size : Nat) : CStr :=
  match text with
  | some text => strncpy text (size - 1)
  | none => []

/-- The arguments of `audit_log_event` with its reading of the clock. -/
structure AuditEvent where
  eventType : AuditEventType
  severity : AuditSeverity
  subject : Option CStr
  object : Option CStr
  action : Option CStr
  sourceIp : Option CStr
  outcome : Int
  message : Option CStr
  now : Int

def newRecord (eventId : UInt64) (event : AuditEvent) : AuditRecord H where
  eventId := eventId
  eventType := event.eventType
  severity := event.severity
  subject := field event.subject auditMaxSubjectLen
  object := field event.object auditMaxObjectLen
  action := field event.action auditMaxActionLen
  message := field event.message auditMaxMessageLen
  sourceIp := field event.sourceIp auditMaxSourceIpLen
  prevHashHex := none
  currHashHex := none
  timestamp := event.now
  outcome := event.outcome

/-- The hash that the next record links to. -/
def lastLink (genesis : Option H) (records : List (AuditRecord H)) : Option H :=
  match records.getLast? with
  | none => genesis
  | some record => record.currHashHex

def auditLogEvent (hash : List UInt8 → H) (log : AuditLog H) (event : AuditEvent) :
    Int × AuditLog H :=
  if auditMaxEvents ≤ log.records.length then (-1, log)
  else
    let record := newRecord log.nextEventId event
    let linked : AuditRecord H :=
      { record with prevHashHex := lastLink (some log.genesisHash) log.records }
    let hashed : AuditRecord H :=
      { linked with currHashHex := some (auditComputeRecordHash hash linked) }
    (0, { log with
      records := log.records ++ [if log.integrityEnabled then hashed else record]
      totalEvents := log.totalEvents + 1
      nextEventId := log.nextEventId + 1 })

/-- The loop of `audit_verify_integrity`. -/
def verifyFrom [DecidableEq H] (hash : List UInt8 → H) (expectedPrev : Option H) :
    List (AuditRecord H) → Int
  | [] => 0
  | record :: records =>
      if record.currHashHex ≠ some (auditComputeRecordHash hash record) then -1
      else if record.prevHashHex ≠ expectedPrev then -2
      else verifyFrom hash record.currHashHex records

def auditVerifyIntegrity [DecidableEq H] (hash : List UInt8 → H) (log : AuditLog H) :
    Int × AuditLog H :=
  if !log.integrityEnabled then (0, log)
  else
    let result := verifyFrom hash (some log.genesisHash) log.records
    (result, { log with tampered := result ≠ 0 })

end MiniBackend.Auth.Audit
