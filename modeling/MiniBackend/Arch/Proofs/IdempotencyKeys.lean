import MiniBackend.Arch.BusinessPatterns
import MiniBackend.Lib.CArray
import MiniBackend.Lib.Runs

/-!
# How often an idempotency key is claimed

A key of at most 127 bytes is stored whole and found again, so it is claimed once until its
entry expires.  A longer key is stored without its end and never found.  A response is written
by every `ik_store_mark_completed`, the first one and any later one.
-/

namespace MiniBackend.Arch.Proofs.IdempotencyKeys

open MiniBackend.Arch.Patterns MiniBackend.Lib.CString MiniBackend.Lib.Runs

inductive Request
  | check (key : CStr)
  | markProcessing (key : CStr)
  | markCompleted (key : CStr) (response : List UInt8)
  | evictExpired

structure Answer where
  key : CStr
  claimedAt : UInt64
  response : List UInt8

structure History where
  store : IdempotencyKeyStore
  clock : UInt64
  claims : List (CStr × UInt64)
  answers : List Answer

def start (defaultTtlMs : UInt64) (now : UInt64) : History :=
  ⟨ikStoreCreate defaultTtlMs, now, [], []⟩

def claim (s : History) (key : CStr) (now : UInt64) : History :=
  let (result, store) := ikStoreMarkProcessing s.store key now
  ⟨store, now, if result = 0 then (key, now) :: s.claims else s.claims, s.answers⟩

def complete (s : History) (key : CStr) (response : List UInt8) (now : UInt64) : History :=
  let (result, store) := ikStoreMarkCompleted s.store key response
  let answers :=
    match s.claims.find? (·.1 == key) with
    | some (_, claimedAt) =>
        if result = 0 then ⟨key, claimedAt, storedResponse response⟩ :: s.answers else s.answers
    | none => s.answers
  ⟨store, now, s.claims, answers⟩

/-- A request and the time when it is made. -/
def step (s : History) : UInt64 × Request → History
  | (now, .check key) => { s with store := (ikStoreCheck s.store key now).2, clock := now }
  | (now, .markProcessing key) => claim s key now
  | (now, .markCompleted key response) => complete s key response now
  | (now, .evictExpired) => { s with store := (ikStoreEvictExpired s.store now).2, clock := now }

def Expired (s : History) (claimedAt now : UInt64) : Prop :=
  s.store.defaultTtlMs < now - claimedAt

instance decidableExpired (s : History) (claimedAt now : UInt64) :
    Decidable (Expired s claimedAt now) :=
  inferInstanceAs (Decidable (s.store.defaultTtlMs < _))

/-- What is asked of a request. -/
structure RequestHolds (s : History) (request : UInt64 × Request) : Prop where
  once : ∀ key, request.2 = .markProcessing key →
    (ikStoreMarkProcessing s.store key request.1).1 = 0 →
    ∀ claimedAt, (key, claimedAt) ∈ s.claims → Expired s claimedAt request.1
  readable : ∀ answer ∈ (step s request).answers,
    ¬ Expired (step s request) answer.claimedAt request.1 →
    ikStoreGetResponse (step s request).store answer.key = some answer.response

/-- The clock does not go back. -/
def Forward (s : History) (request : UInt64 × Request) : Prop := s.clock ≤ request.1

/-- Keys are short enough to be stored whole, and no other response is given for a key that is
completed and has not expired. -/
def ShortAndFinal (s : History) : UInt64 × Request → Prop
  | (_, .markProcessing key) => key.length < ikKeyLen
  | (now, .markCompleted key response) => ∀ entry ∈ s.store.entries, entry.hasKey key = true →
      entry.status = .completed → entry.isExpired now = false →
      entry.response = storedResponse response
  | _ => True

instance decidableShortAndFinal (s : History) (request : UInt64 × Request) :
    Decidable (ShortAndFinal s request) :=
  match request with
  | (_, .check _) => inferInstanceAs (Decidable True)
  | (_, .markProcessing key) => inferInstanceAs (Decidable (key.length < ikKeyLen))
  | (_, .markCompleted _ _) => inferInstanceAs (Decidable (∀ entry ∈ s.store.entries, _))
  | (_, .evictExpired) => inferInstanceAs (Decidable True)

/-! ## Times -/

theorem expired_mono {ttl claimedAt now later : UInt64} (hclaimed : claimedAt ≤ now)
    (hlater : now ≤ later) (h : ttl < now - claimedAt) : ttl < later - claimedAt := by
  rw [UInt64.lt_iff_toNat_lt, UInt64.toNat_sub_of_le _ _ hclaimed] at h
  rw [UInt64.lt_iff_toNat_lt, UInt64.toNat_sub_of_le _ _ (UInt64.le_trans hclaimed hlater)]
  rw [UInt64.le_iff_toNat_le] at hlater
  omega

/-! ## Entries -/

theorem hasKey_iff {entry : IdempotencyKeyEntry} {key : CStr}
    (h : entry.key.length < ikKeyLen) : entry.hasKey key = true ↔ entry.key = key := by
  unfold IdempotencyKeyEntry.hasKey
  rw [List.take_of_length_le (Nat.le_of_lt h), beq_iff_eq]
  constructor
  · intro heq
    rw [heq, List.length_take] at h
    rw [heq]
    exact List.take_of_length_le (by omega)
  · intro heq
    rw [← heq, List.take_of_length_le (Nat.le_of_lt h)]

structure Sound (s : History) : Prop where
  short : ∀ entry ∈ s.store.entries, entry.key.length < ikKeyLen
  ttl : ∀ entry ∈ s.store.entries, entry.ttlMs = s.store.defaultTtlMs
  nodup : (s.store.entries.map (·.key)).Nodup
  latest : ∀ entry ∈ s.store.entries,
    s.claims.find? (·.1 == entry.key) = some (entry.key, entry.createdAtMs)
  past : ∀ claim ∈ s.claims, claim.2 ≤ s.clock
  claimed : ∀ claim ∈ s.claims, Expired s claim.2 s.clock ∨
    ∃ entry ∈ s.store.entries, entry.key = claim.1 ∧ entry.createdAtMs = claim.2
  answered : ∀ answer ∈ s.answers, answer.claimedAt ≤ s.clock ∧
    (Expired s answer.claimedAt s.clock ∨ ∃ entry ∈ s.store.entries,
      entry.key = answer.key ∧ entry.createdAtMs = answer.claimedAt ∧
        entry.status = .completed ∧ entry.response = answer.response)

theorem findIndex_eq_none_iff {s : History} (h : Sound s) {key : CStr} :
    ikStoreFindIndex s.store key = none ↔ ∀ entry ∈ s.store.entries, entry.key ≠ key := by
  rw [ikStoreFindIndex, List.findIdx?_eq_none_iff]
  constructor
  · intro hnone entry hmem heq
    have hfalse := hnone entry hmem
    rw [(hasKey_iff (h.short entry hmem)).mpr heq] at hfalse
    contradiction
  · intro hne entry hmem
    rw [Bool.eq_false_iff]
    exact mt (hasKey_iff (h.short entry hmem)).mp (hne entry hmem)

theorem findIndex_eq_some {s : History} (h : Sound s) {key : CStr} {idx : Nat}
    (hfind : ikStoreFindIndex s.store key = some idx) :
    ∃ entry, s.store.entries[idx]? = some entry ∧ entry.key = key := by
  rw [ikStoreFindIndex, List.findIdx?_eq_some_iff_getElem] at hfind
  obtain ⟨hidx, hkey, -⟩ := hfind
  refine ⟨s.store.entries[idx], List.getElem?_eq_getElem hidx, ?_⟩
  exact (hasKey_iff (h.short _ (List.getElem_mem hidx))).mp hkey

theorem Sound.eq_of_key {s : History} (h : Sound s) {entry entry' : IdempotencyKeyEntry}
    (hmem : entry ∈ s.store.entries) (hmem' : entry' ∈ s.store.entries)
    (hkey : entry.key = entry'.key) : entry = entry' :=
  List.inj_on_of_nodup_map h.nodup hmem hmem' hkey

theorem getResponse_of_mem {s : History} (h : Sound s) {entry : IdempotencyKeyEntry}
    (hmem : entry ∈ s.store.entries) :
    ikStoreGetResponse s.store entry.key = some entry.response := by
  rw [ikStoreGetResponse]
  cases hfind : ikStoreFindIndex s.store entry.key with
  | none => exact absurd rfl ((findIndex_eq_none_iff h).mp hfind entry hmem)
  | some idx =>
      obtain ⟨entry', hget, hkey⟩ := findIndex_eq_some h hfind
      have heq : entry' = entry := h.eq_of_key (List.mem_of_getElem? hget) hmem hkey
      rw [Option.bind_some, hget, heq, Option.map_some]

/-- Every accepted response can be read until its key expires. -/
theorem Sound.readable {s : History} (h : Sound s) {answer : Answer} (hmem : answer ∈ s.answers)
    (hfresh : ¬ Expired s answer.claimedAt s.clock) :
    ikStoreGetResponse s.store answer.key = some answer.response := by
  obtain ⟨-, hexpired | ⟨entry, hentry, hkey, -, -, hresponse⟩⟩ := h.answered answer hmem
  · exact absurd hexpired hfresh
  · rw [← hkey, ← hresponse]
    exact getResponse_of_mem h hentry

/-! ## Requests that drop expired entries -/

structure Drops (now : UInt64) (store store' : IdempotencyKeyStore) : Prop where
  ttl : store'.defaultTtlMs = store.defaultTtlMs
  sublist : store'.entries.Sublist store.entries
  kept : ∀ entry ∈ store.entries, entry.isExpired now = false → entry ∈ store'.entries

theorem Drops.refl (now : UInt64) (store : IdempotencyKeyStore) : Drops now store store :=
  ⟨rfl, List.Sublist.refl _, fun _ h _ => h⟩

theorem Drops.trans {now : UInt64} {store mid store' : IdempotencyKeyStore}
    (h : Drops now store mid) (h' : Drops now mid store') : Drops now store store' where
  ttl := h'.ttl.trans h.ttl
  sublist := h'.sublist.trans h.sublist
  kept entry hmem hfresh := h'.kept entry (h.kept entry hmem hfresh) hfresh

theorem drops_eraseIdx {now : UInt64} {store : IdempotencyKeyStore} {idx : Nat}
    {entry : IdempotencyKeyEntry} (hget : store.entries[idx]? = some entry)
    (hexpired : entry.isExpired now = true) {hits misses expiredCount : Nat} :
    Drops now store
      ⟨store.entries.eraseIdx idx, store.defaultTtlMs, hits, misses, expiredCount⟩ where
  ttl := rfl
  sublist := List.eraseIdx_sublist ..
  kept other hmem hfresh := by
    obtain ⟨j, hj⟩ := List.mem_iff_getElem?.mp hmem
    rw [List.mem_eraseIdx_iff_getElem?]
    refine ⟨j, ?_, hj⟩
    intro hidx
    rw [hidx, hget, Option.some.injEq] at hj
    rw [hj, hfresh] at hexpired
    contradiction

theorem check_drops (store : IdempotencyKeyStore) (key : CStr) (now : UInt64) :
    Drops now store (ikStoreCheck store key now).2 := by
  rw [ikStoreCheck]
  cases ikStoreFindIndex store key with
  | none => exact ⟨rfl, List.Sublist.refl _, fun _ h _ => h⟩
  | some idx =>
      dsimp only
      cases hget : store.entries[idx]? with
      | none => exact ⟨rfl, List.Sublist.refl _, fun _ h _ => h⟩
      | some entry =>
          dsimp only
          split
          · next hexpired => exact drops_eraseIdx hget hexpired
          · exact ⟨rfl, List.Sublist.refl _, fun _ h _ => h⟩

theorem evictLoop_drops (now : UInt64) (i evicted : Nat) (store : IdempotencyKeyStore) :
    Drops now store (evictLoop now i (evicted, store)).2 := by
  induction i generalizing evicted store with
  | zero => exact .refl now store
  | succ i ih =>
      rw [evictLoop]
      cases hget : store.entries[i]? with
      | none => exact ih _ _
      | some entry =>
          rw [Option.any_some]
          split
          · next hexpired => exact (drops_eraseIdx hget hexpired).trans (ih _ _)
          · exact ih _ _

theorem Sound.drops {s : History} (h : Sound s) {now : UInt64} {store : IdempotencyKeyStore}
    (hnow : s.clock ≤ now) (hdrops : Drops now s.store store) :
    Sound { s with store := store, clock := now } := by
  have hmem : ∀ entry ∈ store.entries, entry ∈ s.store.entries :=
    fun entry hentry => hdrops.sublist.subset hentry
  have hexpired : ∀ {claimedAt : UInt64}, claimedAt ≤ s.clock → Expired s claimedAt s.clock →
      store.defaultTtlMs < now - claimedAt := by
    intro claimedAt hpast hold
    rw [hdrops.ttl]
    exact expired_mono hpast hnow hold
  -- an entry that is dropped has expired at `now`
  have hkept : ∀ entry ∈ s.store.entries, store.defaultTtlMs < now - entry.createdAtMs ∨
      entry ∈ store.entries := by
    intro entry hentry
    cases hfresh : entry.isExpired now with
    | true =>
        left
        rw [hdrops.ttl, ← h.ttl entry hentry]
        exact of_decide_eq_true hfresh
    | false => exact Or.inr (hdrops.kept entry hentry hfresh)
  refine ⟨?_, ?_, ?_, ?_, ?_, ?_, ?_⟩
  · exact fun entry hentry => h.short entry (hmem entry hentry)
  · exact fun entry hentry => (h.ttl entry (hmem entry hentry)).trans hdrops.ttl.symm
  · exact (hdrops.sublist.map _).nodup h.nodup
  · exact fun entry hentry => h.latest entry (hmem entry hentry)
  · exact fun claim hclaim => UInt64.le_trans (h.past claim hclaim) hnow
  · intro claim hclaim
    rcases h.claimed claim hclaim with hold | ⟨entry, hentry, hkey, hcreated⟩
    · exact Or.inl (hexpired (h.past claim hclaim) hold)
    · rcases hkept entry hentry with hgone | hstays
      · exact Or.inl (hcreated ▸ hgone)
      · exact Or.inr ⟨entry, hstays, hkey, hcreated⟩
  · intro answer hanswer
    obtain ⟨hpast, hstored⟩ := h.answered answer hanswer
    refine ⟨UInt64.le_trans hpast hnow, ?_⟩
    rcases hstored with hold | ⟨entry, hentry, hkey, hcreated, hstatus, hresponse⟩
    · exact Or.inl (hexpired hpast hold)
    · rcases hkept entry hentry with hgone | hstays
      · exact Or.inl (hcreated ▸ hgone)
      · exact Or.inr ⟨entry, hstays, hkey, hcreated, hstatus, hresponse⟩

/-! ## Claims -/

theorem Sound.later {s : History} (h : Sound s) {now : UInt64} (hnow : s.clock ≤ now) :
    Sound { s with clock := now } :=
  h.drops hnow (.refl now s.store)

theorem markProcessing_eq_zero {s : History} (h : Sound s) {key : CStr} {now : UInt64}
    (hzero : (ikStoreMarkProcessing s.store key now).1 = 0) :
    (∀ entry ∈ s.store.entries, entry.key ≠ key) ∧
      ikStoreMarkProcessing s.store key now = (0, { s.store with
        entries := s.store.entries ++
          [⟨strncpy key (ikKeyLen - 1), [], .processing, now, s.store.defaultTtlMs⟩] }) := by
  unfold ikStoreMarkProcessing at hzero ⊢
  by_cases hfull : ikMaxKeys ≤ s.store.entries.length
  · rw [if_pos hfull] at hzero
    contradiction
  · rw [if_neg hfull] at hzero ⊢
    cases hfind : ikStoreFindIndex s.store key with
    | none => exact ⟨(findIndex_eq_none_iff h).mp hfind, rfl⟩
    | some idx =>
        rw [hfind] at hzero
        contradiction

theorem markProcessing_ne_zero {store : IdempotencyKeyStore} {key : CStr} {now : UInt64}
    (hne : (ikStoreMarkProcessing store key now).1 ≠ 0) :
    (ikStoreMarkProcessing store key now).2 = store := by
  unfold ikStoreMarkProcessing at hne ⊢
  split
  · rfl
  · next hroom =>
      split
      · rfl
      · next hnew =>
          rw [if_neg hroom, if_neg hnew] at hne
          exact absurd rfl hne

theorem Sound.claim {s : History} (h : Sound s) {key : CStr} {now : UInt64}
    (hnow : s.clock ≤ now) (hshort : key.length < ikKeyLen) : Sound (claim s key now) := by
  unfold IdempotencyKeys.claim
  dsimp only
  by_cases hzero : (ikStoreMarkProcessing s.store key now).1 = 0
  · obtain ⟨hnew, hstore⟩ := markProcessing_eq_zero h hzero
    rw [hstore, if_pos rfl, strncpy_of_le (Nat.le_sub_one_of_lt hshort)]
    have hlater := h.later hnow
    refine ⟨?_, ?_, ?_, ?_, ?_, ?_, ?_⟩
    · intro entry hentry
      rcases List.mem_append.mp hentry with hold | hlast
      · exact h.short entry hold
      · rw [List.mem_singleton.mp hlast]
        exact hshort
    · intro entry hentry
      rcases List.mem_append.mp hentry with hold | hlast
      · exact h.ttl entry hold
      · rw [List.mem_singleton.mp hlast]
    · rw [List.map_append, List.nodup_append]
      refine ⟨h.nodup, List.nodup_singleton _, ?_⟩
      intro a ha b hb
      obtain ⟨entry, hentry, rfl⟩ := List.mem_map.mp ha
      rw [List.map_singleton, List.mem_singleton] at hb
      rw [hb]
      exact hnew entry hentry
    · intro entry hentry
      rcases List.mem_append.mp hentry with hold | hlast
      · rw [List.find?_cons_of_neg]
        · exact h.latest entry hold
        · simpa using (hnew entry hold).symm
      · rw [List.mem_singleton.mp hlast, List.find?_cons_of_pos]
        exact beq_self_eq_true key
    · intro claim hclaim
      cases List.mem_cons.mp hclaim with
      | inl hlast => rw [hlast]; exact UInt64.le_refl _
      | inr hold => exact hlater.past claim hold
    · intro claim hclaim
      cases List.mem_cons.mp hclaim with
      | inl hlast =>
          rw [hlast]
          exact Or.inr ⟨_, List.mem_append_right _ List.mem_cons_self, rfl, rfl⟩
      | inr hold =>
          refine (hlater.claimed claim hold).imp_right ?_
          intro ⟨entry, hentry, hkey⟩
          exact ⟨entry, List.mem_append_left _ hentry, hkey⟩
    · intro answer hanswer
      obtain ⟨hpast, hstored⟩ := hlater.answered answer hanswer
      refine ⟨hpast, hstored.imp_right ?_⟩
      intro ⟨entry, hentry, hkey⟩
      exact ⟨entry, List.mem_append_left _ hentry, hkey⟩
  · rw [if_neg hzero, markProcessing_ne_zero hzero]
    exact h.later hnow

/-- A key that is claimed has not been claimed before, or that claim has expired. -/
theorem Sound.once {s : History} (h : Sound s) {key : CStr} {now : UInt64} (hnow : s.clock ≤ now)
    (hzero : (ikStoreMarkProcessing s.store key now).1 = 0) {claimedAt : UInt64}
    (hclaim : (key, claimedAt) ∈ s.claims) : Expired s claimedAt now := by
  rcases h.claimed _ hclaim with hold | ⟨entry, hentry, hkey, -⟩
  · exact expired_mono (h.past _ hclaim) hnow hold
  · exact absurd hkey ((markProcessing_eq_zero h hzero).1 entry hentry)

/-! ## Answers -/

def answerEntry (key : CStr) (response : List UInt8) (entry : IdempotencyKeyEntry) :
    IdempotencyKeyEntry :=
  if entry.key = key then { entry with status := .completed, response := storedResponse response }
  else entry

theorem answerEntry_fields (key : CStr) (response : List UInt8) (entry : IdempotencyKeyEntry) :
    (answerEntry key response entry).key = entry.key ∧
      (answerEntry key response entry).createdAtMs = entry.createdAtMs ∧
      (answerEntry key response entry).ttlMs = entry.ttlMs := by
  unfold answerEntry
  split <;> exact ⟨rfl, rfl, rfl⟩

theorem markCompleted_eq {s : History} (h : Sound s) (key : CStr) (response : List UInt8) :
    (∀ entry ∈ s.store.entries, entry.key ≠ key) ∧
        ikStoreMarkCompleted s.store key response = (-1, s.store) ∨
      (∃ entry ∈ s.store.entries, entry.key = key) ∧
        ikStoreMarkCompleted s.store key response = (0, { s.store with
          entries := s.store.entries.map (answerEntry key response) }) := by
  rw [ikStoreMarkCompleted]
  cases hfind : ikStoreFindIndex s.store key with
  | none => exact Or.inl ⟨(findIndex_eq_none_iff h).mp hfind, rfl⟩
  | some idx =>
      obtain ⟨entry, hget, hkey⟩ := findIndex_eq_some h hfind
      refine Or.inr ⟨⟨entry, List.mem_of_getElem? hget, hkey⟩, ?_⟩
      dsimp only
      congr 2
      apply List.ext_getElem?
      intro j
      rw [List.getElem?_modify, List.getElem?_map]
      cases hj : s.store.entries[j]? with
      | none => rfl
      | some other =>
          have hidx : idx = j ↔ other.key = key := by
            constructor
            · intro heq
              rw [heq, hj, Option.some.injEq] at hget
              rw [hget, hkey]
            · intro heq
              have hlength : idx < (s.store.entries.map (·.key)).length := by
                rw [List.length_map]
                exact (List.getElem?_eq_some_iff.mp hget).1
              apply (List.getElem?_inj hlength h.nodup).mp
              rw [List.getElem?_map, List.getElem?_map, hget, hj, Option.map_some, Option.map_some,
                hkey, heq]
          by_cases hij : idx = j
          · simp [hij, answerEntry, hidx.mp hij]
          · simp [hij, answerEntry, mt hidx.mpr hij]

theorem Sound.complete {s : History} (h : Sound s) {key : CStr} {response : List UInt8}
    {now : UInt64} (hnow : s.clock ≤ now)
    (hfinal : ShortAndFinal s (now, .markCompleted key response)) :
    Sound (complete s key response now) := by
  have hlater := h.later hnow
  unfold IdempotencyKeys.complete
  rcases markCompleted_eq h key response with ⟨-, hstore⟩ | ⟨⟨found, hfound, hkey⟩, hstore⟩
  · rw [hstore]
    dsimp only
    split
    · rw [if_neg (by decide)]
      exact hlater
    · exact hlater
  · have hclaim := h.latest found hfound
    rw [hkey] at hclaim
    rw [hstore, hclaim]
    dsimp only
    rw [if_pos rfl]
    have hmap : ∀ entry' ∈ s.store.entries.map (answerEntry key response),
        ∃ entry ∈ s.store.entries, entry'.key = entry.key ∧
          entry'.createdAtMs = entry.createdAtMs ∧ entry'.ttlMs = entry.ttlMs := by
      intro entry' hentry'
      obtain ⟨entry, hentry, rfl⟩ := List.mem_map.mp hentry'
      exact ⟨entry, hentry, answerEntry_fields key response entry⟩
    refine ⟨?_, ?_, ?_, ?_, hlater.past, ?_, ?_⟩
    · intro entry' hentry'
      obtain ⟨entry, hentry, heq, -⟩ := hmap entry' hentry'
      rw [heq]
      exact h.short entry hentry
    · intro entry' hentry'
      obtain ⟨entry, hentry, -, -, heq⟩ := hmap entry' hentry'
      rw [heq]
      exact h.ttl entry hentry
    · dsimp only
      rw [List.map_map]
      have hkeys : ((fun entry : IdempotencyKeyEntry => entry.key) ∘ answerEntry key response) =
          fun entry => entry.key := by
        funext entry
        exact (answerEntry_fields key response entry).1
      rw [hkeys]
      exact h.nodup
    · intro entry' hentry'
      obtain ⟨entry, hentry, heq, hcreated, -⟩ := hmap entry' hentry'
      rw [heq, hcreated]
      exact h.latest entry hentry
    · intro claim hclaim
      refine (hlater.claimed claim hclaim).imp_right ?_
      intro ⟨entry, hentry, heq, hcreated⟩
      obtain ⟨hkey', hcreated', -⟩ := answerEntry_fields key response entry
      exact ⟨_, List.mem_map_of_mem hentry, hkey'.trans heq, hcreated'.trans hcreated⟩
    · intro answer hanswer
      rcases List.mem_cons.mp hanswer with hlast | hold
      · rw [hlast]
        refine ⟨hlater.past _ (List.mem_of_find?_eq_some hclaim), Or.inr ?_⟩
        refine ⟨_, List.mem_map_of_mem hfound, ?_⟩
        rw [answerEntry, if_pos hkey]
        exact ⟨hkey, rfl, rfl, rfl⟩
      · obtain ⟨hpast, hstored⟩ := hlater.answered answer hold
        refine ⟨hpast, ?_⟩
        rcases hstored with hexpired | ⟨entry, hentry, heq, hcreated, hstatus, hresponse⟩
        · exact Or.inl hexpired
        · by_cases hsame : entry.key = key
          · cases hfresh : entry.isExpired now with
            | true =>
                left
                rw [← hcreated]
                unfold IdempotencyKeyEntry.isExpired at hfresh
                rw [h.ttl entry hentry] at hfresh
                exact of_decide_eq_true hfresh
            | false =>
                have hstays := hfinal entry hentry
                  ((hasKey_iff (h.short entry hentry)).mpr hsame) hstatus hfresh
                refine Or.inr ⟨_, List.mem_map_of_mem hentry, ?_⟩
                rw [answerEntry, if_pos hsame]
                exact ⟨heq, hcreated, rfl, hstays.symm.trans hresponse⟩
          · refine Or.inr ⟨_, List.mem_map_of_mem hentry, ?_⟩
            rw [answerEntry, if_neg hsame]
            exact ⟨heq, hcreated, hstatus, hresponse⟩

/-! ## Runs -/

theorem sound_start (defaultTtlMs now : UInt64) : Sound (start defaultTtlMs now) := by
  refine ⟨?_, ?_, ?_, ?_, ?_, ?_, ?_⟩ <;> simp [start, ikStoreCreate]

theorem Sound.step {s : History} (h : Sound s) {request : UInt64 × Request}
    (hnow : Forward s request) (hfinal : ShortAndFinal s request) : Sound (step s request) := by
  obtain ⟨now, request⟩ := request
  cases request with
  | check key => exact h.drops hnow (check_drops s.store key now)
  | markProcessing key => exact h.claim hnow hfinal
  | markCompleted key response => exact h.complete hnow hfinal
  | evictExpired => exact h.drops hnow (evictLoop_drops now _ 0 s.store)

theorem step_clock (s : History) (request : UInt64 × Request) :
    (step s request).clock = request.1 := by
  obtain ⟨now, request⟩ := request
  cases request <;> rfl

theorem Sound.requestHolds {s : History} (h : Sound s) {request : UInt64 × Request}
    (hnow : Forward s request) (hfinal : ShortAndFinal s request) : RequestHolds s request := by
  refine ⟨?_, ?_⟩
  · intro key _ hzero claimedAt hclaim
    exact h.once hnow hzero hclaim
  · intro answer hanswer hfresh
    apply (h.step hnow hfinal).readable hanswer
    rw [step_clock]
    exact hfresh

/-- Requests of any clients, in any order, on keys that are stored whole, and with one response
for each claim: a key is claimed at most once in a time to live, and the response stays. -/
theorem requests_hold {defaultTtlMs now : UInt64} {requests : List (UInt64 × Request)}
    (hforward : Always step Forward (start defaultTtlMs now) requests)
    (hfinal : Always step ShortAndFinal (start defaultTtlMs now) requests) :
    Always step RequestHolds (start defaultTtlMs now) requests :=
  always_of_invariant (I := Sound) step (fun _ _ hs hp => hs.step hp.1 hp.2)
    (fun _ _ hs hp => hs.requestHolds hp.1 hp.2) (sound_start defaultTtlMs now)
    (hforward.and step hfinal)

instance decidableForward (s : History) (request : UInt64 × Request) :
    Decidable (Forward s request) := inferInstanceAs (Decidable (s.clock ≤ _))

def paymentKey : CStr := lit "pay-17"

/-- Two clients claim a key, one of them gives its response, and the other one looks for it. -/
def twoClients : List (UInt64 × Request) :=
  [(1, .markProcessing paymentKey), (2, .markProcessing paymentKey),
    (3, .markCompleted paymentKey (lit "ok")), (4, .check paymentKey), (9000, .evictExpired),
    (9001, .markProcessing paymentKey)]

theorem requests_hold_twoClients : Always step RequestHolds (start 5000 0) twoClients :=
  requests_hold (by decide) (by decide)

/-- A key of 128 bytes. -/
def longKey : CStr := List.replicate 128 107

/-- The long key is claimed twice within a millisecond, and a second response takes the place of
the first one. -/
theorem longKey_claimed_twice :
    ((ikStoreMarkProcessing (start 5000 0).store longKey 1).1 = 0 ∧
      ¬ Always step RequestHolds (start 5000 0)
        [(1, .markProcessing longKey), (2, .markProcessing longKey)]) ∧
    ¬ Always step RequestHolds (start 5000 0) [(1, .markProcessing paymentKey),
      (2, .markCompleted paymentKey (lit "ok")), (3, .markCompleted paymentKey (lit "no"))] := by
  refine ⟨⟨by decide, ?_⟩, ?_⟩
  · intro h
    have honce := h.2.1.once longKey rfl (by decide) 1 List.mem_cons_self
    exact absurd honce (by decide)
  · intro h
    have hreadable := h.2.2.1.readable ⟨paymentKey, 1, lit "ok"⟩
      (List.mem_cons_of_mem _ List.mem_cons_self) (by decide)
    exact absurd hreadable (by decide)

end MiniBackend.Arch.Proofs.IdempotencyKeys
