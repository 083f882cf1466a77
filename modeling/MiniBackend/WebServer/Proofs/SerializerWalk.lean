import MiniBackend.WebServer.Proofs.JsonReading

/-!
# Where the serializer is

A walk over the value that keeps only the position, and stops where a byte would be stored behind
the end of the buffer.  The serializer follows it: it stays in the buffer exactly when the walk
goes through, and then both end at the same position.
-/

namespace MiniBackend.WebServer.Proofs.SerializerWalk

open MiniBackend.Lib.Binary64 MiniBackend.Lib.CString MiniBackend.WebServer.Json
open MiniBackend.WebServer.Proofs.JsonText MiniBackend.WebServer.Proofs.JsonReading

/-! ## Effects -/

/-- What a step that starts at a known position stores, and where it ends. -/
structure Effect where
  patch : Nat → Option UInt8
  pos : Nat

namespace Effect

def run (e : Effect) (mem : Nat → UInt8) : Output := ⟨fun i => (e.patch i).getD (mem i), e.pos⟩

def Inside (bufSz : Nat) (e : Effect) : Prop := ∀ i, bufSz ≤ i → e.patch i = none

def append (e e' : Effect) : Effect := ⟨fun i => (e'.patch i).or (e.patch i), e'.pos⟩

theorem run_append (e e' : Effect) (mem : Nat → UInt8) :
    (e.append e').run mem = e'.run (e.run mem).mem := by
  simp only [run, append]
  congr 1
  funext i
  cases e'.patch i <;> rfl

theorem inside_append {bufSz : Nat} {e e' : Effect} :
    (e.append e').Inside bufSz ↔ e.Inside bufSz ∧ e'.Inside bufSz := by
  simp only [Inside, append, Option.or_eq_none_iff]
  constructor
  · intro h
    exact ⟨fun i hi => (h i hi).2, fun i hi => (h i hi).1⟩
  · rintro ⟨h, h'⟩ i hi
    exact ⟨h' i hi, h i hi⟩

/-- Whatever the memory was, it is unchanged behind the buffer only if nothing is stored there. -/
theorem inside_iff {bufSz : Nat} {e : Effect} :
    e.Inside bufSz ↔ ∀ mem i, bufSz ≤ i → (e.run mem).mem i = mem i := by
  constructor
  · intro h mem i hi
    simp only [run, h i hi, Option.getD_none]
  · intro h i hi
    cases hpatch : e.patch i with
    | none => rfl
    | some b =>
        have hsame := h (fun _ => b + 1) i hi
        simp only [run, hpatch, Option.getD_some] at hsame
        have hnat := congrArg UInt8.toNat hsame
        have hlt := b.toNat_lt
        rw [UInt8.toNat_add] at hnat
        have hone : (1 : UInt8).toNat = 1 := rfl
        omega

end Effect

/-! ## Simulation -/

section

variable (bufSz : Nat)

def Follows (e : Effect) : Option Nat → Prop
  | some q => e.Inside bufSz ∧ e.pos = q ∧ q < bufSz + 2 ^ 31
  | none => ¬ e.Inside bufSz

def Simulates (step : Output → Output) (walk : Nat → Option Nat) : Prop :=
  ∀ p, ∃ e : Effect, (∀ mem, step ⟨mem, p⟩ = e.run mem) ∧
    (p < bufSz + 2 ^ 31 → Follows bufSz e (walk p))

variable {bufSz}

theorem Simulates.comp {step step' : Output → Output} {walk walk' : Nat → Option Nat}
    (h : Simulates bufSz step walk) (h' : Simulates bufSz step' walk') :
    Simulates bufSz (fun out => step' (step out)) (fun p => (walk p).bind walk') := by
  intro p
  obtain ⟨e, hrun, hfollows⟩ := h p
  obtain ⟨e', hrun', hfollows'⟩ := h' e.pos
  refine ⟨e.append e', ?_, ?_⟩
  · intro mem
    show step' (step ⟨mem, p⟩) = _
    rw [Effect.run_append, ← hrun', hrun]
    rfl
  · intro hp
    have hfirst := hfollows hp
    show Follows bufSz (e.append e') ((walk p).bind walk')
    cases hwalk : walk p with
    | none =>
        rw [hwalk] at hfirst
        exact fun hinside => hfirst (Effect.inside_append.mp hinside).1
    | some q =>
        rw [hwalk] at hfirst
        obtain ⟨hinside, hpos, hq⟩ := hfirst
        have hsecond := hfollows' (hpos ▸ hq)
        rw [hpos] at hsecond
        show Follows bufSz (e.append e') (walk' q)
        cases hwalk' : walk' q with
        | none =>
            rw [hwalk'] at hsecond
            exact fun hboth => hsecond (Effect.inside_append.mp hboth).2
        | some q' =>
            rw [hwalk'] at hsecond
            exact ⟨Effect.inside_append.mpr ⟨hinside, hsecond.1⟩, hsecond.2⟩

theorem Simulates.ite (c : Nat → Prop) [DecidablePred c] {step step' : Output → Output}
    {walk walk' : Nat → Option Nat} (h : Simulates bufSz step walk)
    (h' : Simulates bufSz step' walk') :
    Simulates bufSz (fun out => if c out.pos then step out else step' out)
      (fun p => if c p then walk p else walk' p) := by
  intro p
  by_cases hc : c p
  · simp only [if_pos hc]
    exact h p
  · simp only [if_neg hc]
    exact h' p

theorem simulates_id : Simulates bufSz id some := by
  intro p
  refine ⟨⟨fun _ => none, p⟩, fun _ => rfl, fun hp => ⟨fun _ _ => rfl, rfl, hp⟩⟩

variable (bufSz)

/-- A formatted text is printed from no further than the end of the buffer. -/
def walkPrint (n p : Nat) : Option Nat := if p ≤ bufSz then some (p + n) else none

def walkByte (b : UInt8) (p : Nat) : Option Nat :=
  if escapeByte b = [b] then if p < bufSz then some (p + 1) else none
  else walkPrint bufSz (escapeByte b).length p

def walkBytes : CStr → Nat → Option Nat
  | [], p => some p
  | b :: s, p => if p < sizeSub bufSz 2 then (walkByte bufSz b p).bind (walkBytes s) else some p

variable {bufSz}

theorem simulates_print {text : CStr} (htext : text.length < 2 ^ 31) :
    Simulates bufSz (print bufSz text) (walkPrint bufSz text.length) := by
  intro p
  let size := sizeSub bufSz p
  let written := text.take (size - 1)
  let patch : Nat → Option UInt8 := fun i =>
    if i < p then none
    else if i < p + written.length then some (written.getD (i - p) 0)
    else if i = p + written.length ∧ 0 < size then some 0
    else none
  have hwritten : written.length = min (size - 1) text.length := List.length_take
  refine ⟨⟨patch, p + text.length⟩, ?_, ?_⟩
  · intro mem
    simp only [print, Effect.run]
    congr 1
    funext i
    simp only [patch]
    split
    · rfl
    · split
      · rfl
      · split <;> rfl
  · intro hp
    rw [walkPrint]
    by_cases hin : p ≤ bufSz
    · have hsize : size = bufSz - p := sizeSub_of_le hin
      rw [if_pos hin]
      refine ⟨?_, rfl, by omega⟩
      intro i hi
      show patch i = none
      simp only [patch]
      rw [if_neg (by omega), if_neg (by omega), if_neg (by omega)]
    · have hsize : size = 2 ^ 64 + bufSz - p := if_neg hin
      rw [if_neg hin]
      intro hinside
      have hend := hinside (p + written.length) (by omega)
      simp only [patch] at hend
      rw [if_neg (by omega), if_neg (by omega), if_pos ⟨trivial, by omega⟩] at hend
      cases hend

theorem simulates_putByte (b : UInt8) :
    Simulates bufSz (putByte b) (fun p => if p < bufSz then some (p + 1) else none) := by
  intro p
  refine ⟨⟨fun i => if i = p then some b else none, p + 1⟩, ?_, ?_⟩
  · intro mem
    simp only [putByte, Effect.run]
    congr 1
    funext i
    by_cases hi : i = p
    · rw [hi, Function.update_self, if_pos rfl]
      rfl
    · rw [Function.update_of_ne hi, if_neg hi]
      rfl
  · intro hp
    by_cases hin : p < bufSz
    · simp only [if_pos hin]
      refine ⟨?_, rfl, by omega⟩
      intro i hi
      exact if_neg (by omega)
    · simp only [if_neg hin]
      intro hinside
      have hstored := hinside p (Nat.le_of_not_lt hin)
      simp only [if_true] at hstored
      cases hstored

/-- How a text is written that stands for the byte `b`. -/
def writeText (bufSz : Nat) (b : UInt8) (text : CStr) (out : Output) : Output :=
  if text = [b] then putByte b out else print bufSz text out

theorem writeText_ite {c : Prop} [Decidable c] {b : UInt8} {text₁ text₂ : CStr}
    {out out₁ out₂ : Output} (h₁ : out₁ = writeText bufSz b text₁ out)
    (h₂ : out₂ = writeText bufSz b text₂ out) :
    (if c then out₁ else out₂) = writeText bufSz b (if c then text₁ else text₂) out := by
  split
  · exact h₁
  · exact h₂

theorem print_eq_writeText {b : UInt8} {text : CStr} (h : text.length ≠ 1) (out : Output) :
    print bufSz text out = writeText bufSz b text out := by
  have hne : text ≠ [b] := by
    rintro rfl
    exact h rfl
  exact (if_neg hne).symm

/-- A byte that is not its own text is printed. -/
theorem serializeByte_eq (b : UInt8) (out : Output) :
    serializeByte bufSz b out = writeText bufSz b (escapeByte b) out := by
  have hlong : (unicodeEscape b).length = 6 := rfl
  unfold serializeByte escapeByte
  apply writeText_ite (print_eq_writeText (by decide) out)
  apply writeText_ite (print_eq_writeText (by decide) out)
  apply writeText_ite (print_eq_writeText (by decide) out)
  apply writeText_ite (print_eq_writeText (by decide) out)
  apply writeText_ite (print_eq_writeText (by decide) out)
  apply writeText_ite (print_eq_writeText (by decide) out)
  apply writeText_ite (print_eq_writeText (by decide) out)
  apply writeText_ite (print_eq_writeText (by omega) out)
  exact (if_pos rfl).symm

theorem simulates_serializeByte (b : UInt8) :
    Simulates bufSz (serializeByte bufSz b) (walkByte bufSz b) := by
  have hlength : (escapeByte b).length < 2 ^ 31 := by
    have hall : ∀ b, (escapeByte b).length ≤ 6 := by
      apply forall_byte
      decide +kernel
    have hle := hall b
    omega
  by_cases hplain : escapeByte b = [b]
  · have hstep : serializeByte bufSz b = putByte b := by
      funext out
      rw [serializeByte_eq, writeText, if_pos hplain]
    have hwalk : walkByte bufSz b = fun p => if p < bufSz then some (p + 1) else none := by
      funext p
      rw [walkByte, if_pos hplain]
    rw [hstep, hwalk]
    exact simulates_putByte b
  · have hstep : serializeByte bufSz b = print bufSz (escapeByte b) := by
      funext out
      rw [serializeByte_eq, writeText, if_neg hplain]
    have hwalk : walkByte bufSz b = walkPrint bufSz (escapeByte b).length := by
      funext p
      rw [walkByte, if_neg hplain]
    rw [hstep, hwalk]
    exact simulates_print hlength

theorem simulates_serializeBytes (s : CStr) :
    Simulates bufSz (serializeBytes bufSz s) (walkBytes bufSz s) := by
  induction s with
  | nil => exact simulates_id
  | cons b s ih =>
      have hstep := (simulates_serializeByte b).comp ih
      exact Simulates.ite (fun p => p < sizeSub bufSz 2) hstep simulates_id

end

/-! ## Values -/

section

variable (formatG17 : Double → CStr)

/-- `snprintf` can count the characters of the texts that it formats. -/
def PrintableNode : JsonValue → Prop
  | .number value => (numberText formatG17 value).length < 2 ^ 31
  | .object members => ∀ m ∈ members, (keyText m.1).length < 2 ^ 31
  | _ => True

variable (bufSz : Nat)

mutual

def walk (val : JsonValue) (p : Nat) : Option Nat :=
  if bufSz ≤ p then some p
  else
    match val with
    | .null => walkPrint bufSz (jsonText formatG17 .null).length p
    | .bool value => walkPrint bufSz (jsonText formatG17 (.bool value)).length p
    | .number value => walkPrint bufSz (jsonText formatG17 (.number value)).length p
    | .string s => ((walkPrint bufSz 1 p).bind (walkBytes bufSz s)).bind (walkPrint bufSz 1)
    | .array items => ((walkPrint bufSz 1 p).bind (walkItems true items)).bind (walkPrint bufSz 1)
    | .object members =>
        ((walkPrint bufSz 1 p).bind (walkMembers true members)).bind (walkPrint bufSz 1)

def walkItems (first : Bool) (items : List JsonValue) (p : Nat) : Option Nat :=
  match items with
  | [] => some p
  | val :: items =>
      ((if first then some p else walkPrint bufSz 1 p).bind (walk val)).bind (walkItems false items)

def walkMembers (first : Bool) (members : List (CStr × JsonValue)) (p : Nat) : Option Nat :=
  match members with
  | [] => some p
  | (key, val) :: members =>
      (((if first then some p else walkPrint bufSz 1 p).bind
        (walkPrint bufSz (keyText key).length)).bind (walk val)).bind (walkMembers false members)

end

variable {formatG17 bufSz}

theorem simulates_separator (first : Bool) :
    Simulates bufSz (fun out => if first then out else print bufSz [comma] out)
      (fun p => if first then some p else walkPrint bufSz 1 p) := by
  cases first with
  | true => exact simulates_id
  | false => exact simulates_print (by decide)

/-- A value is left out when the buffer is full. -/
theorem Simulates.unlessFull {step : Output → Output} {walk : Nat → Option Nat}
    (h : Simulates bufSz step walk) :
    Simulates bufSz (fun out => if bufSz ≤ out.pos then out else step out)
      (fun p => if bufSz ≤ p then some p else walk p) :=
  Simulates.ite (fun p => bufSz ≤ p) simulates_id h

theorem Simulates.between {step : Output → Output} {walk : Nat → Option Nat} (first last : UInt8)
    (h : Simulates bufSz step walk) :
    Simulates bufSz
      (fun out => if bufSz ≤ out.pos then out
        else print bufSz [last] (step (print bufSz [first] out)))
      (fun p => if bufSz ≤ p then some p
        else ((walkPrint bufSz 1 p).bind walk).bind (walkPrint bufSz 1)) := by
  have hone : ∀ b : UInt8, Simulates bufSz (print bufSz [b]) (walkPrint bufSz 1) := by
    intro b
    apply simulates_print
    rw [List.length_singleton]
    decide
  exact (((hone first).comp h).comp (hone last)).unlessFull

theorem simulates_items {items : List JsonValue}
    (hvalue : ∀ val ∈ items,
      Simulates bufSz (jsonSerializeInternal formatG17 bufSz val) (walk formatG17 bufSz val))
    (first : Bool) :
    Simulates bufSz (serializeItems formatG17 bufSz first items)
      (walkItems formatG17 bufSz first items) := by
  induction items generalizing first with
  | nil => exact simulates_id
  | cons val items ih =>
      have hrest := ih (fun v hv => hvalue v (List.mem_cons_of_mem val hv)) false
      exact ((simulates_separator first).comp (hvalue val List.mem_cons_self)).comp hrest

theorem simulates_members {members : List (CStr × JsonValue)}
    (hkey : ∀ m ∈ members, (keyText m.1).length < 2 ^ 31)
    (hvalue : ∀ m ∈ members,
      Simulates bufSz (jsonSerializeInternal formatG17 bufSz m.2) (walk formatG17 bufSz m.2))
    (first : Bool) :
    Simulates bufSz (serializeMembers formatG17 bufSz first members)
      (walkMembers formatG17 bufSz first members) := by
  induction members generalizing first with
  | nil => exact simulates_id
  | cons m members ih =>
      obtain ⟨key, val⟩ := m
      have hprint := @simulates_print bufSz _ (hkey _ List.mem_cons_self)
      have hrest := ih (fun m hm => hkey m (List.mem_cons_of_mem _ hm))
        (fun m hm => hvalue m (List.mem_cons_of_mem _ hm)) false
      exact (((simulates_separator first).comp hprint).comp
        (hvalue _ List.mem_cons_self)).comp hrest

theorem simulates_serializeInternal (val : JsonValue)
    (hprintable : Every (PrintableNode formatG17) val) :
    Simulates bufSz (jsonSerializeInternal formatG17 bufSz val) (walk formatG17 bufSz val) := by
  induction val using valueInduction with
  | null =>
      have hnull : (jsonText formatG17 .null).length < 2 ^ 31 := by
        rw [jsonText]
        decide
      exact (simulates_print hnull).unlessFull
  | bool value =>
      have hbool : (jsonText formatG17 (.bool value)).length < 2 ^ 31 := by
        rw [jsonText]
        cases value <;> decide
      exact (simulates_print hbool).unlessFull
  | number value =>
      have hnumber : (jsonText formatG17 (.number value)).length < 2 ^ 31 := hprintable
      exact (simulates_print hnumber).unlessFull
  | string s => exact (simulates_serializeBytes s).between quote quote
  | array items ih =>
      rw [Every, everyItem_iff] at hprintable
      have hitems := @simulates_items formatG17 bufSz items
        (fun val hval => ih val hval (hprintable.2 val hval)) true
      exact hitems.between 91 93
  | object members ih =>
      rw [Every, everyMember_iff] at hprintable
      have hmembers := @simulates_members formatG17 bufSz members hprintable.1
        (fun m hm => ih m hm (hprintable.2 m hm)) true
      exact hmembers.between 123 125

end

end MiniBackend.WebServer.Proofs.SerializerWalk
