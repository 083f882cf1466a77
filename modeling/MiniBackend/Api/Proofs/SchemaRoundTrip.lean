import MiniBackend.Lib.Runs
import MiniBackend.Api.Proofs.SchemaParsing

/-!
# Schemas through the definition language

A schema that is printed and read again.  The printer writes the brackets of a list behind the
type, where the parser does not look for them, and the parser adds the arguments of a field before
it adds the field.
-/

namespace MiniBackend.Api.Proofs.SchemaRoundTrip

open MiniBackend.Lib MiniBackend.Lib.CArray MiniBackend.Lib.CString MiniBackend.Lib.Runs
open MiniBackend.Lib.Scanner MiniBackend.Api.Graphql MiniBackend.Api.Proofs.SchemaParsing
open MiniBackend.Api.Proofs.SchemaParsing

/-! ## Built schemas -/

inductive Op
  | addType (name : CStr)
  | addField (typeName fieldName : CStr) (kind : GqlScalar) (type : CStr) (isList isNonNull : Bool)
  | addFieldArg (typeName fieldName argName argType : CStr) (required : Bool)
  | addEnumValue (typeName value : CStr)
deriving DecidableEq

def step (s : GqlSchema) : Op → GqlSchema
  | .addType name => gqlSchemaAddType s name
  | .addField typeName fieldName kind type isList isNonNull =>
      gqlSchemaAddField s typeName fieldName kind type isList isNonNull
  | .addFieldArg typeName fieldName argName argType required =>
      gqlSchemaAddFieldArg s typeName fieldName argName argType required
  | .addEnumValue typeName value => gqlSchemaAddEnumValue s typeName value

def BuiltIn (type : CStr) : Prop :=
  type ∈ [lit "Int", lit "Float", lit "Boolean", lit "ID", lit "String"]

instance (type : CStr) : Decidable (BuiltIn type) := inferInstanceAs (Decidable (type ∈ _))

def Valid : Op → Prop
  | .addType name => FitsName name gqlMaxNameLen
  | .addField _ fieldName kind type _ _ =>
      FitsName fieldName gqlMaxNameLen ∧ FitsName type gqlMaxTypeLen ∧
        (BuiltIn type → kind = scalarOf type)
  | .addFieldArg _ _ argName argType _ =>
      FitsName argName gqlMaxNameLen ∧ FitsName argType gqlMaxTypeLen
  | .addEnumValue _ value => FitsName value gqlMaxNameLen

instance : (op : Op) → Decidable (Valid op)
  | .addType name => inferInstanceAs (Decidable (FitsName name gqlMaxNameLen))
  | .addField _ fieldName kind type _ _ =>
      inferInstanceAs (Decidable (FitsName fieldName gqlMaxNameLen ∧ FitsName type gqlMaxTypeLen ∧
        (BuiltIn type → kind = scalarOf type)))
  | .addFieldArg _ _ argName argType _ =>
      inferInstanceAs (Decidable (FitsName argName gqlMaxNameLen ∧ FitsName argType gqlMaxTypeLen))
  | .addEnumValue _ value => inferInstanceAs (Decidable (FitsName value gqlMaxNameLen))

/-- The schema was built by calls with such names. -/
def Built (s : GqlSchema) : Prop := ∃ ops, (∀ op ∈ ops, Valid op) ∧ s = run step gqlSchemaInit ops

/-- No name is given twice. -/
structure Distinct (s : GqlSchema) : Prop where
  types : (s.types.map GqlType.name).Nodup
  fields : ∀ t ∈ s.types, (t.fields.map GqlField.name).Nodup
  args : ∀ t ∈ s.types, ∀ f ∈ t.fields, (f.args.map GqlArgument.name).Nodup
  values : ∀ t ∈ s.types, t.enumValues.Nodup

structure SameField (f g : GqlField) : Prop where
  name : g.name = f.name
  type : g.typeName = f.typeName
  isList : g.isList = f.isList
  isNonNull : g.isNonNull = f.isNonNull
  args : g.args = f.args
  scalar : BuiltIn f.typeName → g.scalar = f.scalar

structure SameType (t u : GqlType) : Prop where
  name : u.name = t.name
  isEnum : u.isEnum = t.isEnum
  values : u.enumValues = t.enumValues
  fields : List.Forall₂ SameField t.fields u.fields

def Restores (s s' : GqlSchema) : Prop := List.Forall₂ SameType s.types s'.types

/-- Through every buffer with room for the text, whatever it holds. -/
def RoundTrips (s : GqlSchema) : Prop :=
  ∀ buf len, (sdlText s).length < len →
    Restores s (gqlParseSchemaSdl gqlSchemaInit (gqlSdlFromSchema s buf len))

/-- There is a type, no field is a list or has arguments, and no enum has fields. -/
def Plain (s : GqlSchema) : Prop :=
  s.types ≠ [] ∧ ∀ t ∈ s.types, if t.isEnum then t.fields = []
    else ∀ f ∈ t.fields, f.isList = false ∧ f.args = []

/-! ## What building keeps -/

def ScalarOk (f : GqlField) : Prop := BuiltIn f.typeName → f.scalar = scalarOf f.typeName

structure TypeInv (t : GqlType) : Prop extends TypeOk t where
  scalars : ∀ f ∈ t.fields, ScalarOk f
  plainValues : t.isEnum = false → t.enumValues = []
  plainArgs : ∀ f ∈ t.fields, ∀ arg ∈ f.args, arg.defaultValue = []

structure SchemaInv (s : GqlSchema) : Prop where
  types : ∀ t ∈ s.types, TypeInv t
  types_le : s.types.length ≤ gqlMaxTypes
  queryType : s.queryType = []

theorem length_updateFirst {α : Type*} (p : α → Bool) (f : α → α) (l : List α) :
    (updateFirst p f l).length = l.length := by
  induction l with
  | nil => rfl
  | cons a l ih =>
      rw [updateFirst]
      split
      · rfl
      · rw [List.length_cons, ih, List.length_cons]

theorem SchemaInv.update {s : GqlSchema} (h : SchemaInv s) (name : CStr) {f : GqlType → GqlType}
    (hf : ∀ t, TypeInv t → TypeInv (f t)) : SchemaInv (updateType s name f) := by
  refine ⟨?_, ?_, h.queryType⟩
  · intro t ht
    rcases mem_updateFirst ht with hold | ⟨u, hu, -, rfl⟩
    · exact h.types t hold
    · exact hf u (h.types u hu)
  · exact (length_updateFirst _ f s.types).trans_le h.types_le

theorem FitsName.strncpy_eq {name : CStr} {size : Nat} (h : FitsName name size) :
    strncpy name (size - 1) = name := h.take_eq

theorem TypeInv.addField {t : GqlType} (h : TypeInv t) {f : GqlField} (hf : FieldOk f)
    (hscalar : ScalarOk f) (hargs : f.args = []) (hroom : ¬gqlMaxFields ≤ t.fields.length) :
    TypeInv { t with fields := t.fields ++ [f] } := by
  refine ⟨⟨h.name, ?_, h.values, ?_, h.values_le⟩, ?_, h.plainValues, ?_⟩
  · exact List.forall_mem_append.mpr ⟨h.fields, by simpa using hf⟩
  · rw [List.length_append, List.length_singleton]
    omega
  · exact List.forall_mem_append.mpr ⟨h.scalars, by simpa using hscalar⟩
  · exact List.forall_mem_append.mpr ⟨h.plainArgs, by simp [hargs]⟩

theorem TypeInv.updateField {t : GqlType} (h : TypeInv t) (name : CStr) {f : GqlField → GqlField}
    (hok : ∀ g, FieldOk g → FieldOk (f g)) (hscalar : ∀ g, ScalarOk g → ScalarOk (f g))
    (hargs : ∀ g, (∀ arg ∈ g.args, arg.defaultValue = []) →
      ∀ arg ∈ (f g).args, arg.defaultValue = []) :
    TypeInv (updateField t name f) := by
  have hmem : ∀ {P : GqlField → Prop}, (∀ g, P g → P (f g)) → (∀ g ∈ t.fields, P g) →
      ∀ g ∈ (Graphql.updateField t name f).fields, P g := by
    intro P hP hall g hg
    rcases mem_updateFirst hg with hold | ⟨g', hg', -, rfl⟩
    · exact hall g hold
    · exact hP g' (hall g' hg')
  exact ⟨⟨h.name, hmem hok h.fields, h.values,
      (length_updateFirst _ f t.fields).trans_le h.fields_le, h.values_le⟩,
    hmem hscalar h.scalars, h.plainValues, hmem hargs h.plainArgs⟩

theorem TypeInv.addEnumValue {t : GqlType} (h : TypeInv t) {value : CStr}
    (hvalue : FitsName value gqlMaxNameLen) (hroom : ¬gqlMaxFields ≤ t.enumValues.length) :
    TypeInv { t with isEnum := true, enumValues := t.enumValues ++ [value] } := by
  refine ⟨⟨h.name, h.fields, ?_, h.fields_le, ?_⟩, h.scalars, fun hfalse => absurd hfalse (by simp),
    h.plainArgs⟩
  · exact List.forall_mem_append.mpr ⟨h.values, by simpa using hvalue⟩
  · rw [List.length_append, List.length_singleton]
    omega

theorem SchemaInv.step {s : GqlSchema} (h : SchemaInv s) {op : Op} (hop : Valid op) :
    SchemaInv (step s op) := by
  cases op with
  | addType name =>
      rw [SchemaRoundTrip.step, gqlSchemaAddType]
      split
      · exact h
      · next hroom =>
          rw [FitsName.strncpy_eq hop]
          refine ⟨List.forall_mem_append.mpr ⟨h.types, ?_⟩, ?_, h.queryType⟩
          · rw [List.forall_mem_singleton]
            exact ⟨⟨hop, by simp, by simp, by simp, by simp⟩, by simp, fun _ => rfl, by simp⟩
          · rw [List.length_append, List.length_singleton]
            omega
  | addField typeName fieldName kind type isList isNonNull =>
      obtain ⟨hname, htype, hscalar⟩ := hop
      refine h.update typeName fun t ht => ?_
      split
      · exact ht
      · next hroom =>
          rw [FitsName.strncpy_eq hname, FitsName.strncpy_eq htype]
          exact ht.addField ⟨hname, htype, by simp⟩ hscalar rfl hroom
  | addFieldArg typeName fieldName argName argType required =>
      obtain ⟨hname, htype⟩ := hop
      refine h.update typeName fun t ht => ht.updateField fieldName ?_ ?_ ?_
      · intro g hg
        rw [addArg, FitsName.strncpy_eq hname, FitsName.strncpy_eq htype]
        split
        · exact hg
        · exact ⟨hg.name, hg.type, List.forall_mem_append.mpr ⟨hg.args, by
            simpa using ⟨hname, htype⟩⟩⟩
      · intro g hg
        rw [addArg]
        split
        · exact hg
        · exact hg
      · intro g hg
        rw [addArg]
        split
        · exact hg
        · exact List.forall_mem_append.mpr ⟨hg, by simp⟩
  | addEnumValue typeName value =>
      refine h.update typeName fun t ht => ?_
      split
      · exact ht
      · next hroom =>
          rw [FitsName.strncpy_eq hop]
          exact ht.addEnumValue hop hroom

theorem Built.inv {s : GqlSchema} (h : Built s) : SchemaInv s := by
  obtain ⟨ops, hops, rfl⟩ := h
  have hinit : SchemaInv gqlSchemaInit := ⟨by simp [gqlSchemaInit], by simp [gqlSchemaInit], rfl⟩
  exact run_invariant step (fun _ _ hs hop => hs.step hop) hinit
    (always_of_forall step (fun _ _ hop => hop) hops gqlSchemaInit)

/-! ## What reading keeps -/

def listFlag (s : GqlSchema) (i j : Nat) : Option Bool :=
  s.types[i]?.bind fun t => t.fields[j]?.map GqlField.isList

/-- Fields that are there keep their place and stay lists or no lists. -/
def KeepsLists (s s' : GqlSchema) : Prop :=
  ∀ i j b, listFlag s i j = some b → listFlag s' i j = some b

theorem KeepsLists.refl (s : GqlSchema) : KeepsLists s s := fun _ _ _ h => h

theorem KeepsLists.trans {s s' s'' : GqlSchema} (h : KeepsLists s s') (h' : KeepsLists s' s'') :
    KeepsLists s s'' := fun i j b hb => h' i j b (h i j b hb)

theorem getElem?_updateFirst {α : Type*} (p : α → Bool) (f : α → α) {l : List α} {i : Nat} {a : α}
    (h : l[i]? = some a) :
    (updateFirst p f l)[i]? = some a ∨ (updateFirst p f l)[i]? = some (f a) := by
  induction l generalizing i with
  | nil => exact absurd h (by simp)
  | cons b l ih =>
      rw [updateFirst]
      cases i with
      | zero =>
          obtain rfl := Option.some.inj h
          split
          · exact .inr rfl
          · exact .inl rfl
      | succ i =>
          split
          · exact .inl h
          · exact ih h

theorem keepsLists_updateType (s : GqlSchema) (name : CStr) {f : GqlType → GqlType}
    (hf : ∀ (t : GqlType) (j : Nat) (b : Bool), t.fields[j]?.map GqlField.isList = some b →
      (f t).fields[j]?.map GqlField.isList = some b) :
    KeepsLists s (updateType s name f) := by
  intro i j b hb
  obtain ⟨t, ht, hflag⟩ := Option.bind_eq_some_iff.mp hb
  rw [listFlag, updateType, Option.bind_eq_some_iff]
  rcases getElem?_updateFirst (fun t => t.name == name) f ht with hsame | hnew
  · exact ⟨t, hsame, hflag⟩
  · exact ⟨f t, hnew, hf t j b hflag⟩

theorem keepsLists_addType (s : GqlSchema) (name : CStr) :
    KeepsLists s (gqlSchemaAddType s name) := by
  rw [gqlSchemaAddType]
  split
  · exact KeepsLists.refl s
  · intro i j b hb
    obtain ⟨t, ht, hflag⟩ := Option.bind_eq_some_iff.mp hb
    have hlt := (List.getElem?_eq_some_iff.mp ht).1
    rw [listFlag, List.getElem?_append_left hlt, ht]
    exact hflag

theorem keepsLists_addField (s : GqlSchema) (typeName fieldName : CStr) (kind : GqlScalar)
    (type : CStr) (isList isNonNull : Bool) :
    KeepsLists s (gqlSchemaAddField s typeName fieldName kind type isList isNonNull) := by
  refine keepsLists_updateType s typeName fun t j b hb => ?_
  split
  · exact hb
  · obtain ⟨f, hf, hflag⟩ := Option.map_eq_some_iff.mp hb
    have hlt := (List.getElem?_eq_some_iff.mp hf).1
    rw [List.getElem?_append_left hlt, hf]
    exact congrArg some hflag

theorem keepsLists_addFieldArg (s : GqlSchema) (typeName fieldName argName argType : CStr)
    (required : Bool) :
    KeepsLists s (gqlSchemaAddFieldArg s typeName fieldName argName argType required) := by
  refine keepsLists_updateType s typeName fun t j b hb => ?_
  obtain ⟨f, hf, hflag⟩ := Option.map_eq_some_iff.mp hb
  rw [updateField, Option.map_eq_some_iff]
  rcases getElem?_updateFirst (fun g => g.name == fieldName)
    (fun f => addArg f argName argType required) hf with hsame | hnew
  · exact ⟨f, hsame, hflag⟩
  · refine ⟨_, hnew, ?_⟩
    rw [addArg]
    split
    · exact hflag
    · exact hflag

theorem keepsLists_sdlArguments (typeName fieldName p : CStr) (s : GqlSchema) :
    KeepsLists s (sdlArguments typeName fieldName p s).1 := by
  induction p, s using sdlArguments.induct typeName fieldName with
  | case1 p s hend =>
      rw [sdlArguments, if_pos hend]
      exact KeepsLists.refl s
  | case2 p s hend rest hnone =>
      rw [sdlArguments, if_neg hend]
      split
      · exact KeepsLists.refl s
      · next hsome => rw [hnone] at hsome; exact absurd (Prod.mk.inj hsome).2 (by simp)
  | case3 p s hend rest name type required hsome ih =>
      have hne := not_or.mp hend
      rw [sdlArguments_of_some hne.1 hne.2 hsome]
      exact (keepsLists_addFieldArg s typeName fieldName name type required).trans ih

theorem keepsLists_sdlField {typeName p rest : CStr} {s s' : GqlSchema} {more : Bool}
    (h : sdlField typeName p s = (s', rest, more)) : KeepsLists s s' := by
  rw [sdlField] at h
  dsimp only at h
  split at h
  · obtain rfl := (Prod.mk.inj h).1
    exact KeepsLists.refl s
  · next field q _ =>
      generalize hargs : (if (gqlSkipWhitespace q).head? = some 40 then
        sdlArguments typeName field (gqlSkipWhitespace q).tail s
      else (s, gqlSkipWhitespace q)) = r at h
      have hr : KeepsLists s r.1 := by
        rw [← hargs]
        split
        · exact keepsLists_sdlArguments typeName field _ s
        · exact KeepsLists.refl s
      split at h
      · split at h
        · obtain rfl := (Prod.mk.inj h).1
          exact hr
        · obtain rfl := (Prod.mk.inj h).1
          exact hr.trans (keepsLists_addField r.1 typeName field _ _ _ _)
      · obtain rfl := (Prod.mk.inj h).1
        exact hr

theorem keepsLists_sdlFields (typeName p : CStr) (s : GqlSchema) :
    KeepsLists s (sdlFields typeName p s).1 := by
  induction p, s using sdlFields.induct typeName with
  | case1 p s hend =>
      rw [sdlFields, if_pos hend]
      exact KeepsLists.refl s
  | case2 p s hend s' rest hmore ih =>
      have hne := not_or.mp hend
      rw [sdlFields_of_more hne.1 hne.2 hmore]
      exact (keepsLists_sdlField hmore).trans ih
  | case3 p s hend s' rest hdone =>
      have hne := not_or.mp hend
      rw [sdlFields_of_done hne.1 hne.2 hdone]
      exact keepsLists_sdlField hdone

theorem keepsLists_sdlEnumValues (typeName p : CStr) (s : GqlSchema) :
    KeepsLists s (sdlEnumValues typeName p s).1 := by
  induction p, s using sdlEnumValues.induct typeName with
  | case1 p s hend =>
      rw [sdlEnumValues, if_pos hend]
      exact KeepsLists.refl s
  | case2 p s hend hnone =>
      have hne := not_or.mp hend
      rw [sdlEnumValues_of_none hne.1 hne.2 hnone]
      exact KeepsLists.refl s
  | case3 p s hend value rest hsome ih =>
      have hne := not_or.mp hend
      rw [sdlEnumValues_of_some hne.1 hne.2 hsome]
      refine KeepsLists.trans (keepsLists_updateType s typeName fun t j b hb => ?_) ih
      split
      · exact hb
      · exact hb

theorem keepsLists_sdlDefinition (p : CStr) (s : GqlSchema) :
    KeepsLists s (sdlDefinition p s).1 := by
  have htype : ∀ q, KeepsLists s (sdlType q s).1 := by
    intro q
    rw [sdlType]
    split
    · exact KeepsLists.refl s
    · next name _ _ =>
        dsimp only
        split
        · exact (keepsLists_addType s name).trans (keepsLists_sdlFields name _ _)
        · exact keepsLists_addType s name
  have henum : ∀ q, KeepsLists s (sdlEnum q s).1 := by
    intro q
    rw [sdlEnum]
    split
    · exact KeepsLists.refl s
    · next name _ _ =>
        have hadd : KeepsLists s (updateType (if hasType s name then s else gqlSchemaAddType s name)
            name fun t => { t with isEnum := true }) := by
          have hupdate : ∀ s',
            KeepsLists s' (updateType s' name fun t => { t with isEnum := true }) :=
            fun s' => keepsLists_updateType s' name fun _ _ _ hb => hb
          split
          · exact hupdate s
          · exact (keepsLists_addType s name).trans (hupdate _)
        dsimp only
        split
        · exact hadd.trans (keepsLists_sdlEnumValues name _ _)
        · exact hadd
  rw [sdlDefinition]
  split
  · exact KeepsLists.refl s
  · split
    · exact htype _
    · split
      · exact henum _
      · exact KeepsLists.refl s

theorem keepsLists_sdlLoop (p : CStr) (s : GqlSchema) : KeepsLists s (sdlLoop p s) := by
  induction p, s using sdlLoop.induct with
  | case1 p s hempty =>
      rw [sdlLoop_eq, if_pos hempty]
      exact KeepsLists.refl s
  | case2 p s hne s' hnone =>
      have hkeep := keepsLists_sdlDefinition (gqlSkipWhitespace p) s
      rw [hnone] at hkeep
      rw [sdlLoop_eq, if_neg hne, hnone]
      exact hkeep
  | case3 p s hne s' rest hsome ih =>
      have hkeep := keepsLists_sdlDefinition (gqlSkipWhitespace p) s
      rw [hsome] at hkeep
      rw [sdlLoop_eq, if_neg hne, hsome]
      exact hkeep.trans ih

/-! ## The round trip -/

/-- The types in front of the first list are read one by one. -/
theorem sdlLoop_types {types : List GqlType} (query : CStr) (htypes : ∀ t ∈ types, TypeOk t)
    (hfields : ∀ t ∈ types, DistinctFields t) (hlists : ∀ t ∈ types, NoLists t)
    {done : List GqlType} (hroom : (done ++ types).length ≤ gqlMaxTypes)
    (hnodup : ((done ++ types).map GqlType.name).Nodup) (rest : CStr) :
    sdlLoop (types.flatMap typeText ++ rest) ⟨done, query⟩ =
      sdlLoop rest ⟨done ++ types.map strip, query⟩ := by
  induction types generalizing done with
  | nil => rw [List.flatMap_nil, List.nil_append, List.map_nil, List.append_nil]
  | cons t types ih =>
      obtain ⟨ht, htypes⟩ := List.forall_mem_cons.mp htypes
      obtain ⟨hfield, hfields⟩ := List.forall_mem_cons.mp hfields
      obtain ⟨hlist, hlists⟩ := List.forall_mem_cons.mp hlists
      have hlength : done.length < gqlMaxTypes := by
        rw [List.length_append, List.length_cons] at hroom
        omega
      have hfresh : t.name ∉ done.map GqlType.name := by
        rw [List.map_append, List.map_cons] at hnodup
        exact fun hmem => (List.disjoint_of_nodup_append hnodup) hmem List.mem_cons_self
      have hname : (strip t).name = t.name := by
        rw [strip]
        split
        · rfl
        · rfl
      have hnodup' : ((done ++ [strip t] ++ types).map GqlType.name).Nodup := by
        simpa [hname] using hnodup
      have hroom' : (done ++ [strip t] ++ types).length ≤ gqlMaxTypes := by
        simpa [Nat.add_assoc, Nat.add_comm] using hroom
      rw [List.flatMap_cons, List.append_assoc,
        sdlLoop_typeText query ht hfield hlist hlength hfresh,
        ih htypes hfields hlists hroom' hnodup', List.map_cons, List.append_assoc]
      rfl

/-- The first list is read as no list, whatever the parser makes of the text behind it. -/
theorem sdlLoop_list {types : List GqlType} (query : CStr) (htypes : ∀ t ∈ types, TypeOk t)
    (hfields : ∀ t ∈ types, DistinctFields t) (hlist : ∃ t ∈ types, ¬NoLists t)
    {done : List GqlType} (hroom : (done ++ types).length ≤ gqlMaxTypes)
    (hnodup : ((done ++ types).map GqlType.name).Nodup) (rest : CStr) :
    ∃ i j, listFlag ⟨types, query⟩ i j = some true ∧
      listFlag (sdlLoop (types.flatMap typeText ++ rest) ⟨done, query⟩) (done.length + i) j =
        some false := by
  induction types generalizing done with
  | nil => exact absurd hlist (by simp)
  | cons t types ih =>
      obtain ⟨ht, htypes⟩ := List.forall_mem_cons.mp htypes
      obtain ⟨hfield, hfields⟩ := List.forall_mem_cons.mp hfields
      have hlength : done.length < gqlMaxTypes := by
        rw [List.length_append, List.length_cons] at hroom
        omega
      have hfresh : t.name ∉ done.map GqlType.name := by
        rw [List.map_append, List.map_cons] at hnodup
        exact fun hmem => (List.disjoint_of_nodup_append hnodup) hmem List.mem_cons_self
      rw [List.flatMap_cons, List.append_assoc]
      by_cases hhead : NoLists t
      · have htail : ∃ u ∈ types, ¬NoLists u := by
          obtain ⟨u, hu, hnot⟩ := hlist
          rcases List.mem_cons.mp hu with rfl | hu
          · exact absurd hhead hnot
          · exact ⟨u, hu, hnot⟩
        have hname : (strip t).name = t.name := by
          rw [strip]
          split
          · rfl
          · rfl
        have hnodup' : ((done ++ [strip t] ++ types).map GqlType.name).Nodup := by
          simpa [hname] using hnodup
        have hroom' : (done ++ [strip t] ++ types).length ≤ gqlMaxTypes := by
          simpa [Nat.add_assoc, Nat.add_comm] using hroom
        obtain ⟨i, j, htrue, hfalse⟩ := ih htypes hfields htail hroom' hnodup'
        refine ⟨i + 1, j, htrue, ?_⟩
        rw [sdlLoop_typeText query ht hfield hhead hlength hfresh, ← hfalse, List.length_append,
          List.length_singleton, Nat.add_assoc, Nat.add_comm 1 i]
      · obtain ⟨henum, hlists⟩ : t.isEnum = false ∧ ∃ f ∈ t.fields, f.isList = true := by
          simpa [NoLists] using hhead
        have hnodupf : (([] ++ t.fields).map GqlField.name).Nodup := hfield
        obtain ⟨fields', p, j, hread, htrue, hfalse⟩ :=
          sdlFields_list query hfresh ht.fields hnodupf
          ht.fields_le hlists (10 :: 10 :: (types.flatMap typeText ++ rest))
        refine ⟨0, j, htrue, ?_⟩
        rw [typeText_object henum, sdlLoop_type query ht.name hlength, sdlFields_newline, hread]
        apply keepsLists_sdlLoop p _ _ j false
        rw [List.length_nil, Nat.zero_add] at hfalse
        rw [listFlag, working, Nat.add_zero, List.getElem?_concat_length]
        exact hfalse

/-- A type is restored if nothing of it was lost. -/
theorem sameType_strip_iff {t : GqlType} (h : TypeInv t) (hlists : NoLists t) :
    SameType t (strip t) ↔
      if t.isEnum then t.fields = [] else ∀ f ∈ t.fields, f.isList = false ∧ f.args = [] := by
  cases henum : t.isEnum with
  | true =>
      rw [strip, if_pos henum, if_pos rfl]
      constructor
      · intro hsame
        exact List.forall₂_nil_right_iff.mp hsame.fields
      · intro hnil
        refine ⟨rfl, henum.symm, rfl, ?_⟩
        rw [hnil]
        exact .nil
  | false =>
      rw [strip, if_neg (by simp [henum]), if_neg (by simp)]
      constructor
      · intro hsame f hf
        have hfields := List.forall₂_map_right_iff.mp hsame.fields
        have hone := List.forall₂_same.mp hfields f hf
        exact ⟨hlists henum f hf, hone.args.symm⟩
      · intro hplain
        refine ⟨rfl, henum.symm, (h.plainValues henum).symm, ?_⟩
        refine List.forall₂_map_right_iff.mpr (List.forall₂_same.mpr fun f hf => ?_)
        obtain ⟨hlist, hargs⟩ := hplain f hf
        exact ⟨rfl, rfl, hlist.symm, rfl, hargs.symm,
          fun hbuiltIn => (h.scalars f hf hbuiltIn).symm⟩

theorem restores_listFlag {s s' : GqlSchema} (h : Restores s s') (i j : Nat) :
    listFlag s' i j = listFlag s i j := by
  have hfields : ∀ {fs gs : List GqlField}, List.Forall₂ SameField fs gs →
      gs.map GqlField.isList = fs.map GqlField.isList := by
    intro fs gs hsame
    induction hsame with
    | nil => rfl
    | cons hone _ ih => rw [List.map_cons, List.map_cons, hone.isList, ih]
  have htypes : s'.types.map (fun t => t.fields.map GqlField.isList) =
      s.types.map fun t => t.fields.map GqlField.isList := by
    rw [Restores] at h
    generalize s.types = ts at h
    generalize s'.types = us at h
    induction h with
    | nil => rfl
    | cons hone _ ih => rw [List.map_cons, List.map_cons, hfields hone.fields, ih]
  have hflag : ∀ s : GqlSchema, listFlag s i j =
      (s.types.map fun t => t.fields.map GqlField.isList)[i]?.bind fun flags => flags[j]? := by
    intro s
    rw [listFlag, List.getElem?_map, Option.bind_map]
    congr 1
    funext t
    exact (List.getElem?_map).symm
  rw [hflag, hflag, htypes]

theorem schema_roundTrips_iff {s : GqlSchema} (hbuilt : Built s) (hdistinct : Distinct s) :
    RoundTrips s ↔ Plain s := by
  have hinv := hbuilt.inv
  have hok : ∀ t ∈ s.types, TypeOk t := fun t ht => (hinv.types t ht).toTypeOk
  have hroom : ([] ++ s.types).length ≤ gqlMaxTypes := hinv.types_le
  have hnodup : (([] ++ s.types).map GqlType.name).Nodup := hdistinct.types
  have hread : ∀ buf len, (sdlText s).length < len → s.types ≠ [] →
      gqlParseSchemaSdl gqlSchemaInit (gqlSdlFromSchema s buf len) =
        sdlLoop (s.types.flatMap typeText ++ []) ⟨[], []⟩ := by
    intro buf len hlen hne
    rw [gqlSdlFromSchema_eq hinv.queryType buf hlen, if_neg hne, List.append_nil]
    rfl
  have hstrip : (∀ t ∈ s.types, NoLists t) →
      sdlLoop (s.types.flatMap typeText ++ []) ⟨[], []⟩ = ⟨s.types.map strip, []⟩ := by
    intro hlists
    rw [sdlLoop_types [] hok hdistinct.fields hlists hroom hnodup, sdlLoop_eq]
    rfl
  have hrestores : (∀ t ∈ s.types, NoLists t) → (Restores s ⟨s.types.map strip, []⟩ ↔
      ∀ t ∈ s.types, if t.isEnum then t.fields = []
        else ∀ f ∈ t.fields, f.isList = false ∧ f.args = []) := by
    intro hlists
    rw [Restores, List.forall₂_map_right_iff, List.forall₂_same]
    exact forall₂_congr fun t ht => sameType_strip_iff (hinv.types t ht) (hlists t ht)
  constructor
  · intro htrip
    have hne : s.types ≠ [] := by
      intro hempty
      -- nothing is printed, and the parser reads what the buffer holds
      have hkept := htrip (lit "type A") ((sdlText s).length + 1) (Nat.lt_succ_self _)
      rw [gqlSdlFromSchema_eq hinv.queryType _ (Nat.lt_succ_self _), if_pos hempty, Restores,
        hempty, List.forall₂_nil_left_iff] at hkept
      exact absurd hkept (by decide +kernel)
    have hall := htrip [] ((sdlText s).length + 1) (Nat.lt_succ_self _)
    rw [hread [] _ (Nat.lt_succ_self _) hne] at hall
    have hlists : ∀ t ∈ s.types, NoLists t := by
      by_contra hsome
      have hlist : ∃ t ∈ s.types, ¬NoLists t := by simpa using hsome
      obtain ⟨i, j, htrue, hfalse⟩ := sdlLoop_list [] hok hdistinct.fields hlist hroom hnodup []
      rw [List.length_nil, Nat.zero_add, restores_listFlag hall i j] at hfalse
      have hsame : listFlag s i j = some true := htrue
      rw [hsame] at hfalse
      exact absurd hfalse (by simp)
    rw [hstrip hlists] at hall
    exact ⟨hne, (hrestores hlists).mp hall⟩
  · rintro ⟨hne, hplain⟩ buf len hlen
    have hlists : ∀ t ∈ s.types, NoLists t := by
      intro t ht henum f hf
      have ht' := hplain t ht
      rw [if_neg (by simp [henum])] at ht'
      exact (ht' f hf).1
    rw [hread buf len hlen hne, hstrip hlists]
    exact (hrestores hlists).mpr hplain

def userOps : List Op :=
  [.addType (lit "User"), .addField (lit "User") (lit "id") .id (lit "ID") false true,
    .addField (lit "User") (lit "role") .string (lit "Role") false false, .addType (lit "Role"),
    .addEnumValue (lit "Role") (lit "ADMIN"), .addEnumValue (lit "Role") (lit "GUEST")]

theorem schema_roundTrips_iff_user : RoundTrips (run step gqlSchemaInit userOps) := by
  refine (schema_roundTrips_iff ⟨userOps, by decide, rfl⟩ ?_).mpr ?_
  · exact ⟨by decide, by decide, by decide, by decide⟩
  · exact ⟨by decide, by decide⟩

def postOps : List Op :=
  [.addType (lit "Query"), .addField (lit "Query") (lit "post") .object (lit "Post") false false,
    .addFieldArg (lit "Query") (lit "post") (lit "id") (lit "ID") true,
    .addField (lit "Query") (lit "posts") .object (lit "Post") true false]

/-- The list comes back as one post. -/
theorem lists_are_lost :
    ¬∀ s : GqlSchema, Built s → Distinct s → RoundTrips s := by
  intro hclaim
  have hbuilt : Built (run step gqlSchemaInit postOps) := ⟨postOps, by decide, rfl⟩
  have hdistinct : Distinct (run step gqlSchemaInit postOps) :=
    ⟨by decide, by decide, by decide, by decide⟩
  have hread := hclaim _ hbuilt hdistinct [] 100 (by decide)
  have hflag := restores_listFlag hread 0 1
  exact absurd hflag (by decide +kernel)

end MiniBackend.Api.Proofs.SchemaRoundTrip
