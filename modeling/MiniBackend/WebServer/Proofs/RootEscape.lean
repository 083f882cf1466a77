import MiniBackend.Lib.DotPath
import MiniBackend.WebServer.StaticServe

/-!
# Paths that leave the root

`build_full_path` joins the root and the path of the URL and cuts slashes and backslashes off
the end; nothing looks at dot segments.  Where the joined path leads is worked out from the
levels that the path climbs and the names it lands at.
-/

namespace MiniBackend.WebServer.Proofs.RootEscape

open MiniBackend.Lib.CString
open MiniBackend.Lib.DotPath
open MiniBackend.WebServer.Http
open MiniBackend.WebServer.StaticServe

/-! ## The end of a text -/

def slashRun (text : CStr) : CStr := (text.reverse.takeWhile isSlash).reverse

theorem trimSlashes_append_slashRun (text : CStr) :
    trimSlashes text ++ slashRun text = text := by
  rw [trimSlashes, slashRun, ← List.reverse_append, List.takeWhile_append_dropWhile,
    List.reverse_reverse]

theorem isSlash_of_mem_slashRun {text : CStr} {b : UInt8} (hb : b ∈ slashRun text) :
    isSlash b = true :=
  List.mem_takeWhile_imp (List.mem_reverse.mp hb)

theorem trimSlashes_append (text more : CStr) :
    trimSlashes (text ++ more) =
      if trimSlashes more = [] then trimSlashes text else text ++ trimSlashes more := by
  simp only [trimSlashes, List.reverse_append, List.dropWhile_append, List.reverse_eq_nil_iff,
    List.isEmpty_iff]
  split
  · rfl
  · rw [List.reverse_append, List.reverse_reverse]

theorem head?_trimSlashes {text : CStr} (h : trimSlashes text ≠ []) :
    (trimSlashes text).head? = text.head? := by
  obtain ⟨b, rest, heq⟩ := List.exists_cons_of_ne_nil h
  have htext := trimSlashes_append_slashRun text
  rw [heq] at htext ⊢
  rw [← htext]
  rfl

def dirPart (text : CStr) : CStr := (text.reverse.dropWhile fun b => !isSep b).reverse

def basePart (text : CStr) : CStr := (text.reverse.takeWhile fun b => !isSep b).reverse

theorem dirPart_append_basePart (text : CStr) : dirPart text ++ basePart text = text := by
  rw [dirPart, basePart, ← List.reverse_append, List.takeWhile_append_dropWhile,
    List.reverse_reverse]

theorem not_mem_basePart (text : CStr) : 47 ∉ basePart text := by
  intro hmem
  unfold basePart at hmem
  have hsep := List.mem_takeWhile_imp (List.mem_reverse.mp hmem)
  exact absurd hsep (by decide)

theorem dirPart_eq_nil_or (text : CStr) :
    dirPart text = [] ∨ (dirPart text).getLast? = some 47 := by
  have hhead := List.head?_dropWhile_not (fun b => !isSep b) text.reverse
  unfold dirPart
  cases hdrop : text.reverse.dropWhile fun b => !isSep b with
  | nil => exact .inl rfl
  | cons b rest =>
      rw [hdrop] at hhead
      have hb : b = 47 := by simpa [isSep] using hhead
      rw [List.getLast?_reverse, List.head?_cons, hb]
      exact .inr rfl

/-! ## Where joined paths lead -/

theorem resolve_dirPart (cwd : List CStr) (text : CStr) {more : CStr}
    (hmore : more.head? ≠ some 47) :
    resolve cwd (dirPart text ++ more) = walk (resolve cwd (dirPart text)) (stepsOf more) := by
  rcases dirPart_eq_nil_or text with hnil | hlast
  · rw [hnil, List.nil_append, resolve, resolve, if_neg hmore, if_neg (by simp), stepsOf_nil,
      walk_nil]
  · apply resolve_append cwd _ (.inl hlast)
    intro hnil
    rw [hnil] at hlast
    cases hlast

theorem stepsOf_append_seps (text : CStr) {seps : CStr} (hseps : ∀ b ∈ seps, b = 47) :
    stepsOf (text ++ seps) = stepsOf text := by
  have hnil : ∀ {seps : CStr}, (∀ b ∈ seps, b = 47) → stepsOf seps = [] := by
    intro seps hseps
    induction seps with
    | nil => exact stepsOf_nil
    | cons b seps ih =>
        rw [hseps b List.mem_cons_self, stepsOf_cons_sep]
        exact ih fun c hc => hseps c (List.mem_cons_of_mem b hc)
  cases seps with
  | nil => rw [List.append_nil]
  | cons b seps =>
      rw [hseps b List.mem_cons_self, stepsOf_append_sep,
        hnil (fun c hc => hseps c (List.mem_cons_of_mem b hc)), List.append_nil]

theorem resolve_append_seps (cwd : List CStr) {text seps : CStr} (hne : text ≠ [])
    (hseps : ∀ b ∈ seps, b = 47) : resolve cwd (text ++ seps) = resolve cwd text := by
  obtain ⟨b, rest, rfl⟩ := List.exists_cons_of_ne_nil hne
  rw [resolve, resolve, stepsOf_append_seps _ hseps, List.cons_append, List.head?_cons,
    List.head?_cons]

theorem toStep_of_backslash {name : CStr} (h : 92 ∈ name) :
    name ≠ [] ∧ name ≠ [46] ∧ name ≠ [46, 46] := by
  refine ⟨?_, ?_, ?_⟩
  all_goals
    rintro rfl
    revert h
    decide

theorem down_of_mem_stepsOf {text : CStr} (htext : ∀ b ∈ text, isSlash b = true)
    {step : Step CStr} (hstep : step ∈ stepsOf text) : ∃ name, step = .down name := by
  obtain ⟨name, hname, hto⟩ := List.mem_filterMap.mp hstep
  obtain ⟨hne, hfree, hsub⟩ := mem_pieces hname
  obtain ⟨b, rest, rfl⟩ := List.exists_cons_of_ne_nil hne
  have hslash := htext b (hsub.subset List.mem_cons_self)
  have hsep := hfree b List.mem_cons_self
  have hb : b = 92 := by
    simp only [isSlash, Bool.or_eq_true, decide_eq_true_eq] at hslash
    simp only [isSep, decide_eq_false_iff_not] at hsep
    exact hslash.resolve_left hsep
  obtain ⟨-, hdot, hdots⟩ := @toStep_of_backslash (b :: rest) (hb ▸ List.mem_cons_self)
  rw [toStep, if_neg hdot, if_neg hdots] at hto
  exact ⟨b :: rest, (Option.some.inj hto).symm⟩

/-! ## A root that ends in slashes -/

theorem stepsOf_of_not_mem {text : CStr} (h : 47 ∉ text) :
    stepsOf text = [] ∨ stepsOf text = [.up] ∨ stepsOf text = [.down text] := by
  by_cases hne : text = []
  · rw [hne, stepsOf_nil]
    exact .inl rfl
  · have hfree : ∀ b ∈ text, isSep b = false := by
      intro b hb
      simp only [isSep, decide_eq_false_iff_not]
      rintro rfl
      exact h hb
    rw [stepsOf, pieces_single hfree hne]
    by_cases hdot : text = [46]
    · rw [hdot]
      exact .inl (by decide)
    · by_cases hdots : text = [46, 46]
      · rw [hdots]
        exact .inr (.inl (by decide))
      · rw [List.filterMap_cons_some (by rw [toStep, if_neg hdot, if_neg hdots]),
          List.filterMap_nil]
        exact .inr (.inr rfl)

theorem not_prefix_walk (dir : List CStr) {name text : CStr} (hname : name ≠ text)
    (htext : 47 ∉ text) : ¬dir ++ [name] <+: walk dir (stepsOf text) := by
  intro hpre
  have hlength := hpre.length_le
  rw [List.length_append, List.length_singleton] at hlength
  rcases stepsOf_of_not_mem htext with heq | heq | heq
  · rw [heq, walk_nil] at hlength
    omega
  · rw [heq, walk_cons, walk_nil, move, List.length_dropLast] at hlength
    omega
  · rw [heq, walk_cons, walk_nil, move] at hpre
    have hsame := List.prefix_iff_eq_take.mp hpre
    simp only [List.length_append, List.length_singleton] at hsame
    rw [List.take_of_length_le (by simp), List.append_cancel_left_eq, List.singleton_inj] at hsame
    exact hname hsame

/-- A backslash at the end of the root belongs to a name, and is cut off. -/
theorem not_prefix_of_backslash (cwd : List CStr) {text seps tail : CStr} (hne : text ≠ [])
    (hseps : ∀ b ∈ seps, b = 47) (htail : ∀ b ∈ tail, isSlash b = true) :
    ¬resolve cwd (text ++ (seps ++ 92 :: tail)) <+: resolve cwd text := by
  rw [← resolve_append_seps cwd hne hseps, ← List.append_assoc]
  have hsplit := dirPart_append_basePart (text ++ seps)
  have hbase := not_mem_basePart (text ++ seps)
  generalize basePart (text ++ seps) = base at hsplit hbase
  rw [← hsplit, List.append_assoc]
  have hhead : base.head? ≠ some 47 := by
    intro hsome
    exact hbase (List.mem_of_mem_head? hsome)
  have hlonger : (base ++ 92 :: tail).head? ≠ some 47 := by
    cases base with
    | nil =>
        rw [List.nil_append, List.head?_cons]
        decide
    | cons b base => exact hhead
  rw [resolve_dirPart cwd _ hhead, resolve_dirPart cwd _ hlonger]
  generalize resolve cwd (dirPart (text ++ seps)) = dir
  -- the component that ends with the backslash
  have hcomponent : 92 :: tail = 92 :: tail.takeWhile (fun b => !isSep b) ++
      tail.dropWhile fun b => !isSep b := by
    rw [List.cons_append, List.takeWhile_append_dropWhile]
  have hmem : (92 : UInt8) ∈ base ++ 92 :: tail.takeWhile (fun b => !isSep b) :=
    List.mem_append_right base List.mem_cons_self
  obtain ⟨hname, hdot, hdots⟩ := toStep_of_backslash hmem
  have hfree : 47 ∉ base ++ 92 :: tail.takeWhile (fun b => !isSep b) := by
    intro hsep
    rcases List.mem_append.mp hsep with hsep | hsep
    · exact hbase hsep
    · rcases List.mem_cons.mp hsep with hsep | hsep
      · exact absurd hsep (by decide)
      · exact absurd (List.mem_takeWhile_imp hsep) (by decide)
  have hrest : tail.dropWhile (fun b => !isSep b) = [] ∨
      ∃ more, tail.dropWhile (fun b => !isSep b) = 47 :: more := by
    have hfirst := List.head?_dropWhile_not (fun b => !isSep b) tail
    cases hdrop : tail.dropWhile fun b => !isSep b with
    | nil => exact .inl rfl
    | cons b more =>
        rw [hdrop] at hfirst
        have hb : b = 47 := by simpa [isSep] using hfirst
        exact .inr ⟨more, by rw [hb]⟩
  rw [hcomponent, ← List.append_assoc, stepsOf_name hfree hname hdot hdots hrest, walk_cons]
  intro hpre
  have hslashes : ∀ b ∈ tail.dropWhile (fun b => !isSep b), isSlash b = true := by
    intro b hb
    exact htail b ((List.dropWhile_sublist _).subset hb)
  have hdown := prefix_walk (fun step hstep => down_of_mem_stepsOf hslashes hstep)
    (dir ++ [base ++ 92 :: tail.takeWhile fun b => !isSep b])
  apply not_prefix_walk dir _ hbase (hdown.trans hpre)
  intro heq
  have hlength := congrArg List.length heq
  rw [List.length_append, List.length_cons] at hlength
  omega

theorem prefix_trimSlashes_iff (cwd : List CStr) {root : CStr} (hne : trimSlashes root ≠ []) :
    resolve cwd root <+: resolve cwd (trimSlashes root) ↔ 92 ∉ slashRun root := by
  have hroot := trimSlashes_append_slashRun root
  have hslash : ∀ b ∈ slashRun root, isSlash b = true := fun b => isSlash_of_mem_slashRun
  generalize slashRun root = run at hroot hslash
  conv_lhs => lhs; rw [← hroot]
  constructor
  · intro hpre hmem
    obtain ⟨seps, tail, rfl, hnot⟩ := List.eq_append_cons_of_mem hmem
    have hseps : ∀ b ∈ seps, b = 47 := by
      intro b hb
      have hb' := hslash b (List.mem_append_left _ hb)
      simp only [isSlash, Bool.or_eq_true, decide_eq_true_eq] at hb'
      apply hb'.resolve_right
      rintro rfl
      exact hnot hb
    apply not_prefix_of_backslash cwd hne hseps _ hpre
    intro b hb
    exact hslash b (List.mem_append_right seps (List.mem_cons_of_mem 92 hb))
  · intro hnot
    have hseps : ∀ b ∈ run, b = 47 := by
      intro b hb
      have hb' := hslash b hb
      simp only [isSlash, Bool.or_eq_true, decide_eq_true_eq] at hb'
      apply hb'.resolve_right
      rintro rfl
      exact hnot hb
    rw [resolve_append_seps cwd hne hseps]

/-! ## Paths below the root -/

/-- The condition on the root and the path, for a process that runs in the directory `cwd`.
In the last two cases the path, or the path with the last name of the root in front of it,
climbs some levels and lands at some names. -/
def staysBelow (cwd : List CStr) (root path : CStr) : Prop :=
  if trimSlashes path = [] then
    if trimSlashes root = [] then resolve cwd root <+: cwd ++ [staticDefaultIndex]
    else 92 ∉ slashRun root
  else if root = [] ∧ path.head? = some 47 then
    cwd <+: lands (stepsOf (trimSlashes path))
  else if root = [] ∨ root.getLast? = some 47 ∨ path.head? = some 47 then
    let dir := resolve cwd root
    let steps := stepsOf (trimSlashes path)
    dir.drop (dir.length - climbs steps) <+: lands steps
  else
    let steps := stepsOf (basePart root ++ trimSlashes path)
    resolve cwd root <+: climb (resolve cwd (dirPart root)) (climbs steps) ++ lands steps

theorem resolve_index (cwd : List CStr) :
    resolve cwd staticDefaultIndex = cwd ++ [staticDefaultIndex] := by
  have hsteps : stepsOf staticDefaultIndex = [.down staticDefaultIndex] := by decide
  rw [resolve, if_neg (by decide), hsteps]
  rfl

theorem resolve_absolute (cwd : List CStr) {path : CStr} (h : path.head? = some 47) :
    resolve cwd path = lands (stepsOf path) := by
  rw [resolve, if_pos h, walk_eq, climb, List.take_nil, List.nil_append]

/-- Root and path with a slash between them, or no root and a path without one. -/
theorem resolve_join (cwd : List CStr) {root path : CStr}
    (habs : ¬(root = [] ∧ path.head? = some 47))
    (hjoin : root = [] ∨ root.getLast? = some 47 ∨ path.head? = some 47) :
    resolve cwd (root ++ path) = walk (resolve cwd root) (stepsOf path) := by
  by_cases hroot : root = []
  · have hhead : path.head? ≠ some 47 := fun h => habs ⟨hroot, h⟩
    rw [hroot, List.nil_append, resolve, if_neg hhead, resolve, if_neg (by simp), stepsOf_nil,
      walk_nil]
  · exact resolve_append cwd hroot (hjoin.resolve_left hroot)

theorem resolve_merge (cwd : List CStr) {root path : CStr}
    (hjoin : ¬(root = [] ∨ root.getLast? = some 47 ∨ path.head? = some 47)) :
    resolve cwd (root ++ path) =
      walk (resolve cwd (dirPart root)) (stepsOf (basePart root ++ path)) := by
  rw [not_or, not_or] at hjoin
  obtain ⟨hroot, hlast, hhead⟩ := hjoin
  have hfirst : (basePart root ++ path).head? ≠ some 47 := by
    have hfree := not_mem_basePart root
    cases hbase : basePart root with
    | nil => exact hhead
    | cons b base =>
        rw [hbase] at hfree
        rw [List.cons_append, List.head?_cons]
        intro hb
        exact hfree (Option.some.inj hb ▸ List.mem_cons_self)
  rw [← resolve_dirPart cwd root hfirst, ← List.append_assoc, dirPart_append_basePart]

/-- The path that is built from the root and the path, before it is checked for its length. -/
def builtText (root path : CStr) : CStr :=
  if trimSlashes (root ++ path) = [] then staticDefaultIndex else trimSlashes (root ++ path)

theorem prefix_resolve_built_iff (cwd : List CStr) (root path : CStr) :
    resolve cwd root <+: resolve cwd (builtText root path) ↔ staysBelow cwd root path := by
  unfold builtText staysBelow
  rw [trimSlashes_append]
  by_cases hpath : trimSlashes path = []
  · rw [if_pos hpath, if_pos hpath]
    by_cases hroot : trimSlashes root = []
    · rw [if_pos hroot, if_pos hroot, resolve_index]
    · rw [if_neg hroot, if_neg hroot, prefix_trimSlashes_iff cwd hroot]
  · have hne : root ++ trimSlashes path ≠ [] := List.append_ne_nil_of_right_ne_nil root hpath
    have hhead := head?_trimSlashes hpath
    rw [if_neg hpath, if_neg hpath, if_neg hne, ← hhead]
    split_ifs with habs hjoin
    · obtain ⟨hroot, hslash⟩ := habs
      rw [hroot, List.nil_append, resolve_absolute cwd hslash, resolve, if_neg (by simp),
        stepsOf_nil, walk_nil]
    · rw [resolve_join cwd habs hjoin, prefix_walk_iff]
    · rw [resolve_merge cwd hjoin, walk_eq]

theorem staysBelow_of_climbs_eq_zero (cwd : List CStr) {root path : CStr} (hroot : root ≠ [])
    (hpath : trimSlashes path ≠ []) (hslash : path.head? = some 47)
    (hclimbs : climbs (stepsOf (trimSlashes path)) = 0) : staysBelow cwd root path := by
  rw [staysBelow, if_neg hpath, if_neg (fun h => hroot h.1), if_pos (.inr (.inr hslash))]
  dsimp only
  rw [hclimbs, Nat.sub_zero, List.drop_length]
  exact List.nil_prefix

theorem mem_buildFullPath {cfg : StaticConfig} {path out : CStr}
    (hindex : cfg.indexFile = staticDefaultIndex) :
    out ∈ buildFullPath cfg path fpathSize ↔
      (cfg.rootDir ++ path).length < fpathSize ∧ out = builtText cfg.rootDir path := by
  have hfits : strncpy cfg.indexFile (fpathSize - 1) = staticDefaultIndex := by
    rw [hindex]
    decide
  unfold buildFullPath builtText
  dsimp only
  by_cases hlong : fpathSize ≤ (cfg.rootDir ++ path).length
  · rw [if_pos hlong]
    simp only [Option.mem_def, reduceCtorEq, false_iff, not_and]
    omega
  · rw [if_neg hlong]
    by_cases hnil : trimSlashes (cfg.rootDir ++ path) = []
    · rw [if_pos hnil, if_pos hnil, Option.mem_some, hfits, eq_comm]
      exact ⟨fun h => ⟨by omega, h⟩, fun h => h.2⟩
    · rw [if_neg hnil, if_neg hnil, Option.mem_some, eq_comm]
      exact ⟨fun h => ⟨by omega, h⟩, fun h => h.2⟩

/-- The paths that are built for a request line lead to the root or below it exactly if its
path keeps below the root, or is too long to be built. -/
theorem stays_below_root_iff (cwd : List CStr) (rootDir line : CStr) (init : HttpRequest) :
    (∀ req ∈ httpParseRequestLine line init,
        ∀ out ∈ buildFullPath (staticConfigInit rootDir) req.path fpathSize,
          resolve cwd (staticConfigInit rootDir).rootDir <+: resolve cwd out) ↔
      ∀ req ∈ httpParseRequestLine line init,
        ((staticConfigInit rootDir).rootDir ++ req.path).length < fpathSize →
          staysBelow cwd (staticConfigInit rootDir).rootDir req.path := by
  apply forall₂_congr
  intro req _
  constructor
  · intro hbelow hlength
    rw [← prefix_resolve_built_iff]
    exact hbelow _ ((mem_buildFullPath rfl).mpr ⟨hlength, rfl⟩)
  · intro hstays out hout
    obtain ⟨hlength, rfl⟩ := (mem_buildFullPath rfl).mp hout
    rw [prefix_resolve_built_iff]
    exact hstays hlength

/-- `GET /%2e%2e/x HTTP/1.1` with the root `/w`. -/
theorem encoded_dots_escape :
    (httpParseRequestLine (lit "GET /%2e%2e/x HTTP/1.1") httpRequestInit).map
        HttpRequest.path = some (lit "/../x") ∧
      buildFullPath (staticConfigInit (lit "/w")) (lit "/../x") fpathSize =
        some (lit "/w/../x") ∧
      resolve [] (lit "/w/../x") = [lit "x"] ∧ ¬resolve [] (lit "/w") <+: [lit "x"] := by
  decide

end MiniBackend.WebServer.Proofs.RootEscape
