import SynQt.Tools.EnvLayer

namespace SynQt.EnvLayer
open Lib Dict Shared
open YamlEdit (Str lit strip)

variable {reading : Reading} {config : Document} {s : Layered}

/-- A truth value, a text, a whole number, a list or a mapping is of the kind it was. -/
def SameKind : Shape Scalar → Option (Shape Scalar) → Prop
  | .scalar (.bool _), now => ∃ b, now = some (.scalar (.bool b))
  | .scalar (.str _), now => ∃ text, now = some (.scalar (.str text))
  | .scalar (.int _), now => ∃ n, now = some (.scalar (.int n))
  | .list, now => now = some .list
  | .dict, now => now = some .dict
  | .scalar .none, _ => True
  | .scalar (.float _), _ => True
  | .scalar (.other _), _ => True

/-- A variable sets the value at the path, or one inside it. -/
def Addressed (applied : List (Str × List Key)) (path : List Key) : Prop := ∃ setting ∈ applied, path <+: setting.2

def named : List Key := [ .str (lit "entities"), .str (lit "connect_points")]

/-- A route into `entities` or `connect_points`, or into a value that no variable addresses. -/
def Fixed (config : Document) (applied : List (Str × List Key)) (route : Route) : Prop :=
  (∃ key ∈ named, ∃ rest, route = .key key :: rest) ∨
    ∃ path rest, route = keyRoute path ++ rest ∧ (config.look (keyRoute path)).isSome = true ∧ ¬Addressed applied path

/-- The sections are those there were, a fixed route finds what it did, and what the configuration has is of the kind
it was. -/
structure Frame (config : Document) (s : Layered) : Prop where
  sections : ∀ key, (s.merged.look [ .key key]).isSome = (config.look [ .key key]).isSome
  fixed : ∀ route, Fixed config s.applied route → s.merged.look route = config.look route
  kind : ∀ path held, config.look (keyRoute path) = some held → SameKind held (s.merged.look (keyRoute path))

/-- What YAML says a text is, `plain` where that does not fit, or the text where it is no YAML. -/
def SaysYaml (reading : Reading) (raw : Str) (given : Document) (fits : Option (Shape Scalar) → Bool) (plain : Document) :
    Prop :=
  (reading.safeLoad raw = .yamlError ∧ given = .ofScalar (.str raw)) ∨
    ∃ parsed, reading.safeLoad raw = .value parsed ∧ given = if fits (parsed.look []) then parsed else plain

/-- What a text says where something of a type stands: a value of that type, and what YAML says it is where there is no
type to follow. -/
def Says (reading : Reading) (raw : Str) (given : Document) : Option (Shape Scalar) → Prop
  | some (.scalar (.bool _)) =>
    ∃ b, reading.lower (strip raw) ∈ (if b then truths else falsehoods) ∧ given = .ofScalar (.bool b)
  | some (.scalar (.str _)) => given = .ofScalar (.str raw)
  | some (.scalar (.int _)) => ∃ n, reading.int (strip raw) = some n ∧ given = .ofScalar (.int n)
  | some (.scalar (.float _)) => ∃ text, reading.float (strip raw) = some text ∧ given = .ofScalar (.float text)
  | some .list => SaysYaml reading raw given isList (.ofList ((commaItems raw).map .str))
  | _ => SaysYaml reading raw given (fun parsed => !isNone parsed || raw.isEmpty) (.ofScalar (.str raw))

/-- The route comes by the key `key` of the mapping at `place`. -/
def By (s : Layered) (place : s.merged.Place) (key : Key) : Route → Route → Prop :=
  Through s.merged.cells place key s.merged.root

/-- What may be set at a key of a mapping, which its aliases share: on a fixed route, what is found there already; in the
place of a list, what YAML can read; in the place of a mapping, a mapping with everything the configuration has in it, of
its kind; and nowhere a section that was not there. -/
structure FitsAt (reading : Reading) (config : Document) (s : Layered) (setting : Str × List Key) (raw : Str)
    (given : Document) (place : s.merged.Place) (key : Key) : Prop where
  sections : ∀ top, By s place key [ .key top] [] → (config.look [ .key top]).isSome = true
  fixed : ∀ route rest, Fixed config (s.applied ++ [setting]) route → By s place key route rest →
    given.look rest = config.look route
  list : ∀ path, config.look (keyRoute path) = some .list → By s place key (keyRoute path) [] →
    reading.safeLoad raw ≠ .yamlError
  mapping : ∀ path, config.look (keyRoute path) = some .dict → By s place key (keyRoute path) [] →
    ∃ parsed, reading.safeLoad raw = .value parsed ∧ parsed.look [] = some .dict ∧
      ∀ inner held, config.look (keyRoute (path ++ inner)) = some held → SameKind held (parsed.look (keyRoute inner))

def Fits (reading : Reading) (config : Document) (state : Except Str Layered) (assignment : Str × Str) : Prop :=
  ∀ s path place key given, state = .ok s → target reading s.merged assignment.1 = some path →
    Slot s.merged.cells s.merged.root path place key →
    Says reading assignment.2 given (s.merged.look (keyRoute path)) →
    FitsAt reading config s (assignment.1, path) assignment.2 given place key

section Target
variable {π : Type} {cells : π → Cell Key Scalar π} {node : Item Scalar π} {remainder : Str}

private theorem targetPath_nil (path : List Key) : targetPath cells path node [] = some path := by
  rw [targetPath.eq_def, dif_pos rfl]

private theorem targetPath_stop (hne : remainder ≠ []) (hnode : entriesAt cells node = none) (path : List Key) :
    targetPath cells path node remainder = none := by
  rw [targetPath.eq_def, dif_neg hne, hnode]

variable {entries : List (Key × Item Scalar π)} (hne : remainder ≠ []) (hnode : entriesAt cells node = some entries)
include hne hnode

private theorem targetPath_leaf (hkey : longestKey entries remainder = none) (path : List Key) :
    targetPath cells path node remainder = if path = [] then none else some (path ++ [ .str remainder]) := by
  rw [targetPath.eq_def, dif_neg hne, hnode]
  dsimp only
  split
  · rfl
  · next key hsome =>
    rw [hkey] at hsome
    cases hsome

private theorem targetPath_key {key : Str} (hkey : longestKey entries remainder = some key) (path : List Key) :
    targetPath cells path node remainder = targetPath cells (path ++ [ .str key])
      ((lookup entries (.str key)).getD (.scalar .none)) (behind remainder key) := by
  rw [targetPath.eq_def, dif_neg hne, hnode]
  dsimp only
  split
  · next hnone =>
    rw [hkey] at hnone
    cases hnone
  · next key' hsome =>
    rw [hkey] at hsome
    rw [← Option.some.inj hsome]

end Target

/-- On the way to a path that a name resolves to there are mappings. -/
theorem targetPath_slot {π : Type} (cells : π → Cell Key Scalar π) (path : List Key) (node : Item Scalar π) (remainder : Str)
    (result : List Key) (h : targetPath cells path node remainder = some result) :
    ∃ rest, result = path ++ rest ∧ (rest = [] ∨ ∃ place key, Slot cells node rest place key) := by
  induction path, node, remainder using targetPath.induct cells with
  | case1 path node =>
    rw [targetPath_nil] at h
    exact ⟨[], (Option.some.inj h).symm.trans (List.append_nil _).symm, .inl rfl⟩
  | case2 path node remainder hne hnode =>
    rw [targetPath_stop hne hnode] at h
    cases h
  | case3 node remainder hne entries hnode hkey =>
    rw [targetPath_leaf hne hnode hkey, if_pos rfl] at h
    cases h
  | case4 path node remainder hne entries hnode hkey hpath =>
    rw [targetPath_leaf hne hnode hkey, if_neg hpath] at h
    obtain ⟨place, rfl, hat⟩ := entriesAt_some hnode
    exact ⟨[ .str remainder], (Option.some.inj h).symm, .inr ⟨place, _, .last _ hat⟩⟩
  | case5 path node remainder hne entries hnode key hkey ih =>
    rw [targetPath_key hne hnode hkey] at h
    obtain ⟨rest, hresult, hrest⟩ := ih h
    obtain ⟨place, rfl, hat⟩ := entriesAt_some hnode
    refine ⟨ .str key :: rest, by rw [hresult, List.append_assoc, List.singleton_append], .inr ?_⟩
    rcases hrest with rfl | ⟨place', last, hslot⟩
    · exact ⟨place, _, .last _ hat⟩
    · cases hchild : lookup entries (.str key) with
      | none =>
        rw [hchild] at hslot
        obtain ⟨inner, hinner⟩ := Option.isSome_iff_exists.mp hslot.entries_isSome
        cases hinner
      | some child =>
        rw [hchild] at hslot
        refine ⟨place', last, .down ?_ hslot⟩
        rw [next, hat]
        exact hchild

variable {name raw : Str} {path : List Key} {place : s.merged.Place} {key : Key} {given : Document}

private theorem target_slot (h : target reading s.merged name = some path) :
    ∃ place key, Slot s.merged.cells s.merged.root path place key := by
  rw [target] at h
  split at h
  · cases h
  · split at h
    · next resolved hresolved =>
      split at h
      · cases h
      · next hlength =>
        obtain rfl := Option.some.inj h
        obtain ⟨rest, rfl, hrest⟩ := targetPath_slot _ _ _ _ _ hresolved
        refine hrest.resolve_left ?_
        rintro rfl
        exact hlength Nat.two_pos
    · cases h

private theorem parse_iff_says {fits : Option (Shape Scalar) → Bool} {plain : Document} :
    parse reading raw fits plain = .ok given ↔ SaysYaml reading raw given fits plain := by
  rw [parse, SaysYaml]
  cases reading.safeLoad raw with
  | yamlError =>
    refine ⟨fun h => .inl ⟨rfl, (Except.ok.inj h).symm⟩, ?_⟩
    rintro (⟨-, rfl⟩ | ⟨_, hparsed, -⟩)
    · rfl
    · cases hparsed
  | raises message =>
    refine iff_of_false nofun ?_
    rintro (⟨herror, -⟩ | ⟨_, hparsed, -⟩)
    · cases herror
    · cases hparsed
  | value parsed =>
    refine ⟨fun h => .inr ⟨parsed, rfl, (Except.ok.inj h).symm⟩, ?_⟩
    rintro (⟨herror, -⟩ | ⟨_, hparsed, rfl⟩)
    · cases herror
    · cases hparsed
      rfl

theorem coerce_iff {existing : Option (Shape Scalar)} :
    coerce reading existing raw name = .ok given ↔ Says reading raw given existing := by
  cases existing with
  | none =>
    unfold coerce Says
    exact parse_iff_says
  | some shape =>
    cases shape with
    | list | dict =>
      unfold coerce Says
      exact parse_iff_says
    | scalar a =>
      cases a with
      | none | other text =>
        unfold coerce Says
        exact parse_iff_says
      | str text => rw [coerce, Says, Except.ok.injEq, eq_comm]
      | int n =>
        rw [coerce, Says]
        cases reading.int (strip raw) with
        | none => simp
        | some n => simp [eq_comm]
      | float text =>
        rw [coerce, Says]
        cases reading.float (strip raw) with
        | none => simp
        | some text => simp [eq_comm]
      | bool b =>
        have htruth : ∀ word ∈ truths, word ∉ falsehoods := by decide
        rw [coerce, Says]
        split
        · next htrue => simp [htrue, htruth _ htrue, eq_comm]
        · next hnot =>
          split
          · next hfalse => simp [hnot, hfalse, eq_comm]
          · next hneither => simp [hnot, hneither]

private theorem sameKind_self (held : Shape Scalar) : SameKind held (some held) := by
  cases held with
  | scalar a =>
    cases a with
    | none | float text | other text => trivial
    | bool b => exact ⟨b, rfl⟩
    | int n => exact ⟨n, rfl⟩
    | str text => exact ⟨text, rfl⟩
  | list | dict => rfl

private theorem says_scalar {a : Scalar} {now : Option (Shape Scalar)} (hkind : SameKind (.scalar a) now)
    (h : Says reading raw given now) : SameKind (.scalar a) (given.look []) := by
  cases a with
  | none | float text | other text => trivial
  | bool b =>
    obtain ⟨b, rfl⟩ := hkind
    obtain ⟨b, -, rfl⟩ := h
    exact ⟨b, rfl⟩
  | int n =>
    obtain ⟨n, rfl⟩ := hkind
    obtain ⟨n, -, rfl⟩ := h
    exact ⟨n, rfl⟩
  | str text =>
    obtain ⟨text, rfl⟩ := hkind
    obtain rfl := h
    exact ⟨raw, rfl⟩

/-- What a text says where a list is. -/
theorem says_list (h : Says reading raw given (some .list)) :
    given.look [] = some .list ↔ reading.safeLoad raw ≠ .yamlError := by
  rcases h with ⟨herror, rfl⟩ | ⟨parsed, hparsed, rfl⟩
  · exact iff_of_false nofun fun hne => hne herror
  · refine iff_of_true ?_ (by rw [hparsed]; nofun)
    split
    · next hfits =>
      unfold isList at hfits
      split at hfits
      · assumption
      · cases hfits
    · rfl

private theorem says_dict (h : Says reading raw given (some .dict)) :
    given.look [] = some .dict ↔ reading.safeLoad raw = .value given ∧ given.look [] = some .dict := by
  refine ⟨fun hdict => ⟨?_, hdict⟩, And.right⟩
  rcases h with ⟨-, rfl⟩ | ⟨parsed, hparsed, rfl⟩
  · cases hdict
  · split at hdict
    · next hfits => rw [if_pos hfits, hparsed]
    · cases hdict

/-- A mapping that the text is read as is what it says. -/
theorem says_parsed {parsed : Document} (h : Says reading raw given (some .dict))
    (hparsed : reading.safeLoad raw = .value parsed) (hdict : parsed.look [] = some .dict) : given = parsed := by
  rcases h with ⟨herror, -⟩ | ⟨parsed', hparsed', rfl⟩
  · rw [hparsed] at herror
    cases herror
  · rw [hparsed] at hparsed'
    cases hparsed'
    rw [hdict]
    rfl

private theorem keyRoute_append (path inner : List Key) : keyRoute (path ++ inner) = keyRoute path ++ keyRoute inner :=
  List.map_append

theorem Fixed.earlier {applied : List (Str × List Key)} {setting : Str × List Key} {route : Route}
    (h : Fixed config (applied ++ [setting]) route) : Fixed config applied route := by
  refine h.imp_right ?_
  rintro ⟨path, rest, hroute, hthere, hnot⟩
  refine ⟨path, rest, hroute, hthere, fun haddressed => hnot ?_⟩
  obtain ⟨setting, hin, hprefix⟩ := haddressed
  exact ⟨setting, List.mem_append_left _ hin, hprefix⟩

section Step
variable (h : Frame config s) (hslot : Slot s.merged.cells s.merged.root path place key)
  (htext : Says reading raw given (s.merged.look (keyRoute path)))
include h hslot htext

/-- A route that ends in the key finds what the variable finds. -/
theorem says_by {other : List Key} {held : Shape Scalar} (hheld : config.look (keyRoute other) = some held)
    (hby : By s place key (keyRoute other) []) : ∃ now, SameKind held now ∧ Says reading raw given now := by
  have hthere : s.merged.look (keyRoute other) = s.merged.look (keyRoute path) := hby.look.trans (look_slot hslot).symm
  exact ⟨_, h.kind other held hheld, hthere ▸ htext⟩

private theorem kind_of_fits (hfits : FitsAt reading config s (name, path) raw given place key) {other : List Key}
    {held : Shape Scalar} {rest : Route} (hheld : config.look (keyRoute other) = some held)
    (hby : By s place key (keyRoute other) rest) : SameKind held (given.look rest) := by
  obtain ⟨front, hroute, hfront⟩ := Through.split hby
  obtain ⟨outer, inner, rfl, rfl, rfl⟩ := List.map_eq_append_iff.mp hroute
  have hinside (hdict : config.look (keyRoute outer) = some .dict) : SameKind held (given.look (keyRoute inner)) := by
    obtain ⟨now, hkind, htext⟩ := says_by h hslot htext hdict hfront
    obtain rfl := hkind
    obtain ⟨parsed, hparsed, hread, hinner⟩ := hfits.mapping outer hdict hfront
    rw [says_parsed htext hparsed hread]
    exact hinner inner held hheld
  cases inner with
  | cons next inner =>
    rw [keyRoute_append] at hheld
    exact hinside (look_above hheld)
  | nil =>
    rw [List.append_nil] at hheld
    cases held with
    | dict => exact hinside hheld
    | scalar a =>
      obtain ⟨now, hkind, htext⟩ := says_by h hslot htext hheld hfront
      exact says_scalar hkind htext
    | list =>
      obtain ⟨now, hkind, htext⟩ := says_by h hslot htext hheld hfront
      obtain rfl := hkind
      exact (says_list htext).mpr (hfits.list outer hheld hfront)

/-- A variable leaves everything else as it was exactly where its value fits. -/
theorem frame_step (name : Str) :
    Frame config ⟨s.merged.assign path given, s.applied ++ [(name, path)]⟩ ↔
      FitsAt reading config s (name, path) raw given place key := by
  have hnow {route rest : Route} (hby : By s place key route rest) :
      (s.merged.assign path given).look route = given.look rest := look_assign_through hslot given hby
  constructor
  · intro h'
    refine ⟨fun top hby => ?_, fun route rest hfixed hby => ?_, fun other hlist hby => ?_, fun other hdict hby => ?_⟩
    · rw [← h'.sections top, hnow hby]
      rfl
    · exact (hnow hby).symm.trans (h'.fixed route hfixed)
    · obtain ⟨now, hkind, htext⟩ := says_by h hslot htext hlist hby
      obtain rfl := hkind
      exact (says_list htext).mp ((hnow hby).symm.trans (h'.kind other _ hlist))
    · obtain ⟨now, hkind, htext⟩ := says_by h hslot htext hdict hby
      obtain rfl := hkind
      obtain ⟨hparsed, hread⟩ := (says_dict htext).mp ((hnow hby).symm.trans (h'.kind other _ hdict))
      refine ⟨given, hparsed, hread, fun inner held hheld => ?_⟩
      have hinner := h'.kind (other ++ inner) held hheld
      rw [keyRoute_append] at hinner
      rwa [hnow (Through.append hby (keyRoute inner))] at hinner
  · intro hfits
    refine ⟨fun top => ?_, fun route hfixed => ?_, fun other held hheld => ?_⟩
    · by_cases hby : ∃ rest, By s place key [ .key top] rest
      · obtain ⟨rest, hby⟩ := hby
        obtain rfl := Through.single hby
        rw [hnow hby, hfits.sections top hby]
        rfl
      · rw [look_assign_apart hslot given (not_exists.mp hby)]
        exact h.sections top
    · by_cases hby : ∃ rest, By s place key route rest
      · obtain ⟨rest, hby⟩ := hby
        rw [hnow hby]
        exact hfits.fixed route rest hfixed hby
      · rw [look_assign_apart hslot given (not_exists.mp hby)]
        exact h.fixed route hfixed.earlier
    · by_cases hby : ∃ rest, By s place key (keyRoute other) rest
      · obtain ⟨rest, hby⟩ := hby
        rw [hnow hby]
        exact kind_of_fits h hslot htext hfits hheld hby
      · rw [look_assign_apart hslot given (not_exists.mp hby)]
        exact h.kind other held hheld

end Step

/-- What the layer leaves as it was, if it is not refused. -/
def Framed (config : Document) (state : Except Str Layered) : Prop := ∀ s, state = .ok s → Frame config s

private theorem frame_start (config : Document) : Frame config ⟨config, []⟩ :=
  ⟨fun _ => rfl, fun _ _ => rfl, fun _ held hheld => hheld ▸ sameKind_self held⟩

theorem framed_step {state : Except Str Layered} (h : Framed config state) (setting : Str × Str) :
    Framed config (applyVariable reading state setting) ↔ Fits reading config state setting := by
  cases state with
  | error message => exact iff_of_true nofun nofun
  | ok s =>
    have hframe := h s rfl
    rw [applyVariable]
    cases htarget : target reading s.merged setting.1 with
    | none =>
      refine iff_of_true h fun s' path place key given hs hpath => ?_
      obtain rfl := Except.ok.inj hs
      rw [htarget] at hpath
      cases hpath
    | some path =>
      obtain ⟨place, key, hslot⟩ := target_slot htarget
      dsimp only
      cases hgiven : coerce reading (s.merged.look (keyRoute path)) setting.2 setting.1 with
      | error message =>
        refine iff_of_true nofun fun s' path' place key given hs hpath hslot htext => ?_
        obtain rfl := Except.ok.inj hs
        obtain rfl := Option.some.inj (htarget.symm.trans hpath)
        rw [coerce_iff.mpr htext] at hgiven
        cases hgiven
      | ok given =>
        constructor
        · intro hframed s' path' place key given' hs hpath hslot htext
          obtain rfl := Except.ok.inj hs
          obtain rfl := Option.some.inj (htarget.symm.trans hpath)
          obtain rfl := Except.ok.inj (hgiven.symm.trans (coerce_iff.mpr htext))
          exact (frame_step hframe hslot htext setting.1).mp (hframed _ rfl)
        · intro hfits s' hs
          obtain rfl := Except.ok.inj hs
          have htext := coerce_iff.mp hgiven
          exact (frame_step hframe hslot htext setting.1).mpr (hfits s path place key given rfl htarget hslot htext)

instance : Std.Total fun a b : Str × Str => a.1 ≤ b.1 := ⟨fun a b => le_total a.1 b.1⟩

instance : IsTrans (Str × Str) fun a b => a.1 ≤ b.1 := ⟨fun _ _ _ h h' => le_trans h h'⟩

private theorem sortedVariables_first {environment before after : List (Str × Str)}
    (h : sortedVariables environment = before ++ after) : sortedVariables before = before := by
  have hsorted := List.pairwise_insertionSort (fun a b : Str × Str => a.1 ≤ b.1) environment
  rw [← sortedVariables, h] at hsorted
  exact (List.pairwise_append.mp hsorted).1.insertionSort_eq

/-- The layer leaves everything else as it was, for the variables and for any first ones of them, exactly where each
variable's value fits. -/
theorem applyEnv_framed_iff (reading : Reading) (config : Document) (environment : List (Str × Str)) :
    (∀ before after, sortedVariables environment = before ++ after → Framed config (applyEnv reading config before)) ↔
      Each (applyVariable reading) (Fits reading config) (.ok ⟨config, []⟩) (sortedVariables environment) := by
  have hstart : Framed config (.ok ⟨config, []⟩) := by
    intro s hs
    obtain rfl := Except.ok.inj hs
    exact frame_start config
  have hall : Each (applyVariable reading) (fun _ _ => True) (.ok ⟨config, []⟩) (sortedVariables environment) :=
    each_of_all (fun _ _ => trivial) _ _
  have hstep (state : Except Str Layered) (setting : Str × Str) (h : Framed config state) :
      Framed config (applyVariable reading state setting) ↔ Fits reading config state setting := framed_step h setting
  have hprefix := forall_prefix_iff (fun state setting h _ => hstep state setting h)
    (fun state setting h _ hfits => (hstep state setting h).mpr hfits) hstart hstart hall
  rw [← hprefix]
  refine forall_congr' fun before => forall_congr' fun after => forall_congr' fun h => ?_
  rw [applyEnv, sortedVariables_first h]

def asteriskReading : Reading where
  lower := List.map Char.toLower
  int _ := none
  float _ := none
  repr := id
  safeLoad raw := if raw = ['*'] then .yamlError else .value (.ofScalar (.str raw))

def originsPath : List Key := [ .str (lit "security"), .str (lit "allowed_origins")]

def origins : Document where
  Place := Fin 3
  decEq := inferInstance
  cells
    | 0 => .dict [( .str (lit "security"), .node 1)]
    | 1 => .dict [( .str (lit "allowed_origins"), .node 2)]
    | 2 => .list [ .scalar (.str (lit "self"))]
  root := .node 0

private theorem origins_target :
    target asteriskReading origins (lit "SYNQT_SECURITY_ALLOWED_ORIGINS") = some originsPath := by
  have hname : asteriskReading.lower ((lit "SYNQT_SECURITY_ALLOWED_ORIGINS").drop envPrefix.length) =
      lit "security_allowed_origins" := by decide
  have hsection : longestKey [(Key.str (lit "security"), ( .node (1 : Fin 3) : Item Scalar origins.Place))]
      (lit "security_allowed_origins") = some (lit "security") := by decide
  have hkey : longestKey [(Key.str (lit "allowed_origins"), ( .node (2 : Fin 3) : Item Scalar origins.Place))]
      (lit "allowed_origins") = some (lit "allowed_origins") := by decide
  have houter : targetPath origins.cells [] origins.root (lit "security_allowed_origins") =
      targetPath origins.cells [ .str (lit "security")] (.node (1 : Fin 3)) (lit "allowed_origins") :=
    targetPath_key (by decide) rfl hsection []
  have hinner : targetPath origins.cells [ .str (lit "security")] (.node (1 : Fin 3)) (lit "allowed_origins") =
      targetPath origins.cells originsPath (.node (2 : Fin 3)) [] :=
    targetPath_key (by decide) rfl hkey [ .str (lit "security")]
  rw [target, if_neg (by decide), hname, houter, hinner, targetPath_nil]
  rfl

theorem origins_lost :
    ¬Framed origins (applyEnv asteriskReading origins [(lit "SYNQT_SECURITY_ALLOWED_ORIGINS", ['*'])]) := by
  have hsorted : sortedVariables [(lit "SYNQT_SECURITY_ALLOWED_ORIGINS", ['*'])] =
      [(lit "SYNQT_SECURITY_ALLOWED_ORIGINS", ['*'])] := rfl
  have happly : applyEnv asteriskReading origins [(lit "SYNQT_SECURITY_ALLOWED_ORIGINS", ['*'])] =
      .ok ⟨origins.assign originsPath (.ofScalar (.str ['*'])), [(lit "SYNQT_SECURITY_ALLOWED_ORIGINS", originsPath)]⟩ := by
    rw [applyEnv, hsorted, run_cons, run_nil, applyVariable, origins_target]
    rfl
  intro hframed
  cases (hframed _ happly).kind originsPath .list rfl

end SynQt.EnvLayer
