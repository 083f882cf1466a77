import MiniBackend.Auth.AuditLog
import MiniBackend.Lib.Runs

/-!
# What the chain of hashes binds

The hash of a record covers neither the hash of its predecessor nor the borders of its texts.
With two records or more the first one can be changed and linked again without a trace in the
last hash; with one record its texts can be cut at another bar.
-/

namespace MiniBackend.Auth.Proofs.HashChain

open MiniBackend.Auth.Audit MiniBackend.Lib.CString MiniBackend.Lib.Runs

variable {H : Type}

/-! ## Chains -/

def Linked (hash : List UInt8 → H) : Option H → List (AuditRecord H) → Prop
  | _, [] => True
  | prev, record :: records =>
      record.currHashHex = some (auditComputeRecordHash hash record) ∧
        record.prevHashHex = prev ∧ Linked hash record.currHashHex records

theorem verifyFrom_eq_zero [DecidableEq H] {hash : List UInt8 → H} {prev : Option H}
    {records : List (AuditRecord H)} :
    verifyFrom hash prev records = 0 ↔ Linked hash prev records := by
  induction records generalizing prev with
  | nil => exact iff_of_true rfl trivial
  | cons record records ih =>
      unfold verifyFrom Linked
      by_cases hcurr : record.currHashHex = some (auditComputeRecordHash hash record)
      · rw [if_neg (not_not.mpr hcurr)]
        by_cases hprev : record.prevHashHex = prev
        · rw [if_neg (not_not.mpr hprev), ih]
          exact ⟨fun h => ⟨hcurr, hprev, h⟩, fun h => h.2.2⟩
        · rw [if_pos hprev]
          exact iff_of_false (by decide) fun h => hprev h.2.1
      · rw [if_pos hcurr]
        exact iff_of_false (by decide) fun h => hcurr h.1

theorem linked_concat {hash : List UInt8 → H} {prev : Option H} {records : List (AuditRecord H)}
    {record : AuditRecord H} :
    Linked hash prev (records ++ [record]) ↔ Linked hash prev records ∧
      record.currHashHex = some (auditComputeRecordHash hash record) ∧
        record.prevHashHex = lastLink prev records := by
  induction records generalizing prev with
  | nil =>
      rw [List.nil_append]
      unfold Linked Linked lastLink
      rw [List.getLast?_nil]
      tauto
  | cons first records ih =>
      have hlink : lastLink prev (first :: records) = lastLink first.currHashHex records := by
        unfold lastLink
        rw [List.getLast?_cons]
        cases records.getLast? with
        | none => rfl
        | some last => rfl
      rw [List.cons_append, hlink]
      unfold Linked
      rw [ih]
      tauto

theorem auditComputeRecordHash_congr (hash : List UInt8 → H) {record record' : AuditRecord H}
    (h : recordText record = recordText record') :
    auditComputeRecordHash hash record = auditComputeRecordHash hash record' := by
  rw [auditComputeRecordHash, h]
  rfl

/-! ## Logs that are built -/

def step (hash : List UInt8 → H) (log : AuditLog H) (event : AuditEvent) : AuditLog H :=
  (auditLogEvent hash log event).2

structure Built (hash : List UInt8 → H) (genesis : H) (log : AuditLog H) : Prop where
  enabled : log.integrityEnabled = true
  genesis_eq : log.genesisHash = genesis
  linked : Linked hash (some genesis) log.records

theorem Built.step {hash : List UInt8 → H} {genesis : H} {log : AuditLog H}
    (h : Built hash genesis log) (event : AuditEvent) :
    Built hash genesis (step hash log event) := by
  unfold HashChain.step auditLogEvent
  split
  · exact h
  · refine ⟨h.enabled, h.genesis_eq, ?_⟩
    dsimp only
    rw [h.enabled, if_pos rfl, linked_concat, h.genesis_eq]
    exact ⟨h.linked, rfl, rfl⟩

theorem built_run (hash : List UInt8 → H) (genesis : H) (events : List AuditEvent) :
    Built hash genesis (run (step hash) (auditLogInit genesis true) events) :=
  run_keeps (step hash) (fun _ event hlog => hlog.step event) ⟨rfl, rfl, trivial⟩ events

theorem built_passes [DecidableEq H] (hash : List UInt8 → H) (genesis : H)
    (events : List AuditEvent) :
    (auditVerifyIntegrity hash
      (run (step hash) (auditLogInit genesis true) events)).1 = 0 := by
  have hbuilt := built_run hash genesis events
  rw [auditVerifyIntegrity, hbuilt.enabled, if_neg (by decide), hbuilt.genesis_eq]
  exact verifyFrom_eq_zero.mpr hbuilt.linked

/-! ## Logs that pass -/

/-- The texts of a record. -/
@[ext] structure Texts where
  subject : CStr
  object : CStr
  action : CStr
  message : CStr
  sourceIp : CStr
deriving DecidableEq

def texts (record : AuditRecord H) : Texts :=
  ⟨record.subject, record.object, record.action, record.message, record.sourceIp⟩

def Texts.joined (t : Texts) : CStr :=
  t.subject ++ 124 :: (t.object ++ 124 :: (t.action ++ 124 :: (t.message ++ 124 :: t.sourceIp)))

structure Texts.Fits (t : Texts) : Prop where
  subject : t.subject.length < auditMaxSubjectLen
  object : t.object.length < auditMaxObjectLen
  action : t.action.length < auditMaxActionLen
  message : t.message.length < auditMaxMessageLen
  sourceIp : t.sourceIp.length < auditMaxSourceIpLen

/-- The values of a record are those of its types. -/
structure RecordFits (record : AuditRecord H) : Prop where
  texts : (texts record).Fits
  timestamp : -2 ^ 63 ≤ record.timestamp ∧ record.timestamp < 2 ^ 63
  outcome : -2 ^ 31 ≤ record.outcome ∧ record.outcome < 2 ^ 31

/-- A log with integrity on that `audit_verify_integrity` accepts. -/
structure Passes [DecidableEq H] (hash : List UInt8 → H) (log : AuditLog H) : Prop where
  enabled : log.integrityEnabled = true
  fits : ∀ record ∈ log.records, RecordFits record
  verified : (auditVerifyIntegrity hash log).1 = 0

structure Agrees (record record' : AuditRecord H) : Prop where
  eventId : record.eventId = record'.eventId
  eventType : record.eventType = record'.eventType
  severity : record.severity = record'.severity
  texts : texts record = texts record'
  timestamp : record.timestamp = record'.timestamp
  outcome : record.outcome = record'.outcome

/-- No other log of this length that passes has the same last hash. -/
def Evident [DecidableEq H] (hash : List UInt8 → H) (log : AuditLog H) : Prop :=
  ∀ other : AuditLog H, Passes hash other → other.records.length = log.records.length →
    other.genesisHash = log.genesisHash →
    (other.records.getLast?.map (·.currHashHex)) = (log.records.getLast?.map (·.currHashHex)) →
    List.Forall₂ Agrees log.records other.records

def Unambiguous (record : AuditRecord H) : Prop :=
  ∀ t : Texts, t.Fits → t.joined = (texts record).joined → t = texts record

/-- There is at most one record, and it can be read from its text. -/
def Bound : List (AuditRecord H) → Prop
  | [] => True
  | [record] => Unambiguous record
  | _ :: _ :: _ => False

theorem passes_iff [DecidableEq H] {hash : List UInt8 → H} {log : AuditLog H}
    (henabled : log.integrityEnabled = true) :
    (auditVerifyIntegrity hash log).1 = 0 ↔ Linked hash (some log.genesisHash) log.records := by
  rw [auditVerifyIntegrity, henabled, if_neg (by decide)]
  exact verifyFrom_eq_zero

/-! ## The text of a record -/

def severityOf (n : Nat) : AuditSeverity :=
  ([.debug, .info, .warning, .error, .critical] : List AuditSeverity)[n]?.getD .critical

def eventTypeOf (n : Nat) : AuditEventType :=
  ([.loginSuccess, .loginFailure, .logout, .accessGranted, .accessDenied, .permissionChange,
    .roleAssignment, .tokenCreated, .tokenRevoked, .sessionCreated, .sessionExpired,
    .configChange, .rateLimitHit, .csrfValidation, .xssDetected, .custom] :
    List AuditEventType)[n]?.getD .custom

theorem severity_code_injective : Function.Injective AuditSeverity.code :=
  Function.LeftInverse.injective (g := severityOf) fun severity => by cases severity <;> rfl

theorem eventType_code_injective : Function.Injective AuditEventType.code :=
  Function.LeftInverse.injective (g := eventTypeOf) fun eventType => by cases eventType <;> rfl

theorem bar_notMem_decimal (n : Nat) : (124 : UInt8) ∉ decimal n :=
  fun h => absurd (isDigit_of_mem_decimal h) (by decide)

theorem bar_notMem_decimalInt (z : Int) : (124 : UInt8) ∉ decimalInt z :=
  fun h => absurd (isDigit_of_mem_decimalInt h) (by decide)

theorem recordText_eq (record : AuditRecord H) :
    recordText record = decimal record.eventId.toNat ++ 124 :: (decimal record.eventType.code ++
      124 :: (decimal record.severity.code ++ 124 :: ((texts record).joined ++
        124 :: decimalInt record.timestamp ++ 124 :: decimalInt record.outcome))) := by
  have hbar : lit "|" = [124] := by decide
  delta recordText
  simp only [hbar, Texts.joined, texts, List.append_assoc, List.cons_append, List.nil_append]

/-- The numbers can be read from the text, and the texts up to their borders. -/
theorem recordText_inj {record record' : AuditRecord H} :
    recordText record = recordText record' ↔
      record.eventId = record'.eventId ∧ record.eventType = record'.eventType ∧
        record.severity = record'.severity ∧ (texts record).joined = (texts record').joined ∧
        record.timestamp = record'.timestamp ∧ record.outcome = record'.outcome := by
  rw [recordText_eq, recordText_eq]
  constructor
  · intro h
    obtain ⟨hid, h⟩ := append_cons_inj (bar_notMem_decimal _) (bar_notMem_decimal _) h
    obtain ⟨htype, h⟩ := append_cons_inj (bar_notMem_decimal _) (bar_notMem_decimal _) h
    obtain ⟨hseverity, h⟩ := append_cons_inj (bar_notMem_decimal _) (bar_notMem_decimal _) h
    obtain ⟨h, houtcome⟩ :=
      append_cons_inj_last (bar_notMem_decimalInt _) (bar_notMem_decimalInt _) h
    obtain ⟨hjoined, htimestamp⟩ :=
      append_cons_inj_last (bar_notMem_decimalInt _) (bar_notMem_decimalInt _) h
    exact ⟨UInt64.toNat_inj.mp (decimal_injective hid),
      eventType_code_injective (decimal_injective htype),
      severity_code_injective (decimal_injective hseverity), hjoined,
      decimalInt_injective htimestamp, decimalInt_injective houtcome⟩
  · intro ⟨hid, htype, hseverity, hjoined, htimestamp, houtcome⟩
    rw [hid, htype, hseverity, hjoined, htimestamp, houtcome]

theorem length_joined (t : Texts) : t.joined.length =
    t.subject.length + t.object.length + t.action.length + t.message.length +
      t.sourceIp.length + 4 := by
  unfold Texts.joined
  simp only [List.length_append, List.length_cons]
  omega

theorem length_recordText_lt {record : AuditRecord H} (h : RecordFits record) :
    (recordText record).length < auditMaxRecordBufLen := by
  have hid : (decimal record.eventId.toNat).length ≤ 20 :=
    length_decimal_le (by decide) (by have := record.eventId.toNat_lt; omega)
  have htype : (decimal record.eventType.code).length ≤ 2 :=
    length_decimal_le (by decide) (by cases record.eventType <;> decide)
  have hseverity : (decimal record.severity.code).length ≤ 2 :=
    length_decimal_le (by decide) (by cases record.severity <;> decide)
  have htimestamp : (decimalInt record.timestamp).length ≤ 20 :=
    length_decimalInt_le (by decide) (by have := h.timestamp; omega)
  have houtcome : (decimalInt record.outcome).length ≤ 11 :=
    length_decimalInt_le (by decide) (by have := h.outcome; omega)
  obtain ⟨hsubject, hobject, haction, hmessage, hsourceIp⟩ := h.texts
  have hjoined := length_joined (texts record)
  unfold auditMaxSubjectLen at hsubject
  unfold auditMaxObjectLen at hobject
  unfold auditMaxActionLen at haction
  unfold auditMaxMessageLen at hmessage
  unfold auditMaxSourceIpLen at hsourceIp
  rw [recordText_eq]
  simp only [List.length_append, List.length_cons]
  unfold auditMaxRecordBufLen
  omega

theorem hash_eq_iff {hash : List UInt8 → H} (hinj : Function.Injective hash)
    {record record' : AuditRecord H} (h : RecordFits record) (h' : RecordFits record') :
    auditComputeRecordHash hash record = auditComputeRecordHash hash record' ↔
      recordText record = recordText record' := by
  rw [auditComputeRecordHash, auditComputeRecordHash, snprintf_of_lt (length_recordText_lt h),
    snprintf_of_lt (length_recordText_lt h')]
  exact hinj.eq_iff

theorem unambiguous_of_no_bar {record : AuditRecord H}
    (h : (texts record).joined.count 124 = 4) : Unambiguous record := by
  intro t _ hjoined
  have hcount : ∀ u : Texts, u.joined.count 124 = 4 →
      (124 : UInt8) ∉ u.subject ∧ (124 : UInt8) ∉ u.object ∧ (124 : UInt8) ∉ u.action ∧
        (124 : UInt8) ∉ u.message ∧ (124 : UInt8) ∉ u.sourceIp := by
    intro u hu
    unfold Texts.joined at hu
    simp only [List.count_append, List.count_cons_self] at hu
    simp only [← List.count_eq_zero]
    omega
  obtain ⟨hsubject, hobject, haction, hmessage, -⟩ := hcount t (hjoined ▸ h)
  obtain ⟨hsubject', hobject', haction', hmessage', -⟩ := hcount (texts record) h
  unfold Texts.joined at hjoined
  obtain ⟨hone, hjoined⟩ := append_cons_inj hsubject hsubject' hjoined
  obtain ⟨htwo, hjoined⟩ := append_cons_inj hobject hobject' hjoined
  obtain ⟨hthree, hjoined⟩ := append_cons_inj haction haction' hjoined
  obtain ⟨hfour, hfive⟩ := append_cons_inj hmessage hmessage' hjoined
  exact Texts.ext hone htwo hthree hfour hfive

/-! ## Changes without a trace -/

def withTexts (record : AuditRecord H) (t : Texts) : AuditRecord H :=
  { record with
    subject := t.subject
    object := t.object
    action := t.action
    message := t.message
    sourceIp := t.sourceIp }

theorem recordText_withTexts {record : AuditRecord H} {t : Texts}
    (h : t.joined = (texts record).joined) :
    recordText (withTexts record t) = recordText record :=
  recordText_inj.mpr ⟨rfl, rfl, rfl, h, rfl, rfl⟩

def flipOutcome (outcome : Int) : Int := if outcome = 0 then 1 else 0

theorem flipOutcome_ne (outcome : Int) : flipOutcome outcome ≠ outcome := by
  unfold flipOutcome
  split <;> omega

def forge (hash : List UInt8 → H) (record : AuditRecord H) : AuditRecord H :=
  let forged := { record with outcome := flipOutcome record.outcome }
  { forged with currHashHex := some (auditComputeRecordHash hash forged) }

theorem forge_fits (hash : List UInt8 → H) {record : AuditRecord H} (h : RecordFits record) :
    RecordFits (forge hash record) := by
  refine ⟨h.texts, h.timestamp, ?_⟩
  unfold forge flipOutcome
  dsimp only
  split <;> omega

/-- A record is forged, and the next one is linked to what it has become. -/
theorem Linked.forge {hash : List UInt8 → H} {prev : Option H} {first second : AuditRecord H}
    {records : List (AuditRecord H)} (h : Linked hash prev (first :: second :: records)) :
    Linked hash prev (HashChain.forge hash first ::
      { second with prevHashHex := (HashChain.forge hash first).currHashHex } :: records) := by
  obtain ⟨-, hprev, hsecond, -, hrest⟩ := h
  refine ⟨?_, hprev, ?_, rfl, hrest⟩
  · unfold HashChain.forge
    dsimp only
    rw [Option.some.injEq]
    exact auditComputeRecordHash_congr hash rfl
  · exact hsecond.trans (congrArg some (auditComputeRecordHash_congr hash rfl))

/-! ## What the last hash binds -/

section

variable [DecidableEq H] {hash : List UInt8 → H} {log : AuditLog H}

theorem evident_of_unambiguous (hinj : Function.Injective hash) (h : Passes hash log)
    {record : AuditRecord H} (hrecords : log.records = [record]) (hone : Unambiguous record) :
    Evident hash log := by
  intro other hother hlength _ hlast
  have hlinked := (passes_iff h.enabled).mp h.verified
  have hlinked' := (passes_iff hother.enabled).mp hother.verified
  rw [hrecords] at hlinked hlength hlast
  obtain ⟨record', hrecords'⟩ := List.length_eq_one_iff.mp hlength
  rw [hrecords'] at hlinked' hlast
  have hfits : RecordFits record :=
    h.fits record (by rw [hrecords]; exact List.mem_singleton_self _)
  have hfits' : RecordFits record' :=
    hother.fits record' (by rw [hrecords']; exact List.mem_singleton_self _)
  have hhash : record'.currHashHex = record.currHashHex := by simpa using hlast
  rw [hlinked.1, hlinked'.1, Option.some.injEq, hash_eq_iff hinj hfits' hfits,
    recordText_inj] at hhash
  obtain ⟨hid, htype, hseverity, hjoined, htimestamp, houtcome⟩ := hhash
  have htexts := hone (texts record') hfits'.texts hjoined
  rw [hrecords, hrecords']
  exact .cons ⟨hid.symm, htype.symm, hseverity.symm, htexts.symm, htimestamp.symm,
    houtcome.symm⟩ .nil

theorem Evident.unambiguous (hevident : Evident hash log) (h : Passes hash log)
    {record : AuditRecord H} (hrecords : log.records = [record]) : Unambiguous record := by
  intro t ht hjoined
  have hlinked := (passes_iff h.enabled).mp h.verified
  have hfits := h.fits record (by rw [hrecords]; exact List.mem_singleton_self _)
  rw [hrecords] at hlinked
  have htext := recordText_withTexts hjoined
  have hpasses : Passes hash { log with records := [withTexts record t] } := by
    refine ⟨h.enabled, ?_, ?_⟩
    · intro record' hrecord'
      rw [List.mem_singleton.mp hrecord']
      exact ⟨ht, hfits.timestamp, hfits.outcome⟩
    · refine (passes_iff ?_).mpr ⟨?_, hlinked.2.1, trivial⟩
      · exact h.enabled
      · rw [auditComputeRecordHash_congr hash htext]
        exact hlinked.1
  have hagrees := hevident _ hpasses (by rw [hrecords]; rfl) rfl (by rw [hrecords]; rfl)
  rw [hrecords] at hagrees
  cases hagrees with
  | cons hagree _ => exact hagree.texts.symm

theorem not_evident_of_two (h : Passes hash log) {first second : AuditRecord H}
    {records : List (AuditRecord H)} (hrecords : log.records = first :: second :: records) :
    ¬ Evident hash log := by
  intro hevident
  have hlinked := (passes_iff h.enabled).mp h.verified
  have hfits := h.fits
  rw [hrecords] at hlinked hfits
  let relinked : AuditRecord H := { second with prevHashHex := (forge hash first).currHashHex }
  have hpasses : Passes hash { log with records := forge hash first :: relinked :: records } := by
    refine ⟨h.enabled, ?_, ?_⟩
    · intro record hrecord
      rcases List.mem_cons.mp hrecord with rfl | hrecord
      · exact forge_fits hash (hfits first List.mem_cons_self)
      · rcases List.mem_cons.mp hrecord with rfl | hrest
        · have hsecond := hfits second (List.mem_cons_of_mem _ List.mem_cons_self)
          exact ⟨hsecond.texts, hsecond.timestamp, hsecond.outcome⟩
        · exact hfits record (List.mem_cons_of_mem _ (List.mem_cons_of_mem _ hrest))
    · refine (passes_iff ?_).mpr ?_
      · exact h.enabled
      · exact hlinked.forge
  have hlast : ((forge hash first :: relinked :: records).getLast?.map (·.currHashHex)) =
      (log.records.getLast?.map (·.currHashHex)) := by
    rw [hrecords, List.getLast?_cons_cons, List.getLast?_cons_cons, List.getLast?_cons,
      List.getLast?_cons]
    cases records.getLast? with
    | none => rfl
    | some last => rfl
  have hagrees := hevident _ hpasses (by rw [hrecords]; rfl) rfl hlast
  rw [hrecords] at hagrees
  cases hagrees with
  | cons hagree _ => exact flipOutcome_ne first.outcome hagree.outcome.symm

theorem evident_iff (hinj : Function.Injective hash) (h : Passes hash log) :
    Evident hash log ↔ Bound log.records := by
  cases hrecords : log.records with
  | nil =>
      refine iff_of_true ?_ trivial
      intro other _ hlength _ _
      rw [hrecords] at hlength ⊢
      rw [List.length_eq_zero_iff.mp hlength]
      exact .nil
  | cons first records =>
      cases records with
      | nil =>
          exact ⟨fun hevident => hevident.unambiguous h hrecords,
            evident_of_unambiguous hinj h hrecords⟩
      | cons second records => exact iff_of_false (not_evident_of_two h hrecords) id

end

/-- Every log that is built passes, and a log that passes is bound by its last hash exactly when
it has no record, or a single one whose texts can be told apart. -/
theorem tamper_evident_iff [DecidableEq H] (hash : List UInt8 → H) :
    (∀ (genesis : H) (events : List AuditEvent),
      (auditVerifyIntegrity hash (run (step hash) (auditLogInit genesis true) events)).1 = 0) ∧
    (Function.Injective hash → ∀ log : AuditLog H, Passes hash log →
      (Evident hash log ↔ Bound log.records)) :=
  ⟨built_passes hash, fun hinj _ hlog => evident_iff hinj hlog⟩

/-! ## Two logs -/

def loginEvent (outcome : Int) : AuditEvent :=
  ⟨.loginFailure, .warning, some (lit "eve"), some (lit "/admin"), some (lit "login"),
    some (lit "10.0.0.9"), outcome, some (lit "denied"), 1700000000⟩

/-- The log of some logins, with texts for hashes. -/
def loginLog (outcomes : List Int) : AuditLog CStr :=
  run (step id) (auditLogInit genesisHex true) (outcomes.map loginEvent)

instance decidableRecordFits (record : AuditRecord H) : Decidable (RecordFits record) :=
  decidable_of_iff ((record.subject.length < auditMaxSubjectLen ∧
      record.object.length < auditMaxObjectLen ∧ record.action.length < auditMaxActionLen ∧
      record.message.length < auditMaxMessageLen ∧
      record.sourceIp.length < auditMaxSourceIpLen) ∧
    (-2 ^ 63 ≤ record.timestamp ∧ record.timestamp < 2 ^ 63) ∧
    (-2 ^ 31 ≤ record.outcome ∧ record.outcome < 2 ^ 31))
    ⟨fun h => ⟨⟨h.1.1, h.1.2.1, h.1.2.2.1, h.1.2.2.2.1, h.1.2.2.2.2⟩, h.2.1, h.2.2⟩,
      fun h => ⟨⟨h.texts.subject, h.texts.object, h.texts.action, h.texts.message,
        h.texts.sourceIp⟩, h.timestamp, h.outcome⟩⟩

theorem loginLog_passes {outcomes : List Int}
    (h : ∀ record ∈ (loginLog outcomes).records, RecordFits record) :
    Passes id (loginLog outcomes) where
  enabled := (built_run id genesisHex (outcomes.map loginEvent)).enabled
  fits := h
  verified := built_passes id genesisHex (outcomes.map loginEvent)

theorem one_login_evident : Evident id (loginLog [1]) :=
  ((tamper_evident_iff id).2 Function.injective_id (loginLog [1])
    (loginLog_passes (by decide))).mpr (unambiguous_of_no_bar (by decide))

/-- The outcome of the first of two logins can be changed. -/
theorem two_logins_not_evident :
    Passes id (loginLog [1, 0]) ∧ ¬ Evident id (loginLog [1, 0]) :=
  ⟨loginLog_passes (by decide), not_evident_of_two (loginLog_passes (by decide)) rfl⟩

end MiniBackend.Auth.Proofs.HashChain
