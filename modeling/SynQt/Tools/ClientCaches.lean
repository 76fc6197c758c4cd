import SynQt.Tools.ClientShell

namespace SynQt.ClientShell
open List hiding any_eq_true lookup lookup_eq_none_iff
open Lib Dict CacheStorage Option
open YamlEdit (Str lit)

variable (digest : Bytes → Str) (bundle : Str)

/-- The files of a build that a whole cache of it holds. -/
def shell (build : Build) (url : Str) : Option Body :=
  if url ∈ precacheUrls (manifestFiles build) then served digest build url else none

def cacheOf (build : Build) : Str := cacheName bundle (buildId digest build)

def Holds (caches : Caches) (build : Build) : Prop :=
  ∃ cache ∈ caches, cache.live = true ∧ cache.name = cacheOf digest bundle build ∧
    ∀ url, lookup cache.entries url = shell digest build url

/-- Every complete cache is one build, and every page was answered from one. -/
structure Whole (s : State) : Prop where
  caches : ∀ cache ∈ s.caches, cache.live = true → (lookup cache.entries MANIFEST_NAME).isSome = true →
    ∃ build ∈ s.builds, ∀ url, lookup cache.entries url = shell digest build url
  loads : ∀ answered ∈ s.loads, ∃ build ∈ s.builds, ∀ hit ∈ answered, shell digest build hit.url = some hit.body

/-- A step never takes the only complete cache, and a check that ends with it, no build deployed since it began, leaves
the build deployed. -/
structure Kept (s s' : State) : Prop where
  complete : (∃ name, hasCompleteBuild s.caches name = true) → ∃ name, hasCompleteBuild s'.caches name = true
  checked : ∀ (i : Nat) (task task' : Task), s.tasks[i]? = some task → s'.tasks[i]? = some task' → task.event = .checkUpdate →
    task.begun = s'.past.length → task.stage ≠ .ended → task'.stage = .ended → Holds digest bundle s'.caches s'.deployed

/-- The stages that rely on a cache found or opened before. -/
def Stage.relies : Stage → Bool
  | .matchManifest _ _ | .addAll _ _ _ | .findOthers _ | .deleteOthers _ _ => true
  | _ => false

/-- A check begun since the last deploy that relies on the cache it found. -/
def Task.checking (s : State) (task : Task) : Prop :=
  task.event = .checkUpdate ∧ task.begun = s.past.length ∧ task.stage.relies = true

/-- What a handler waits for comes from one build: a file fetched is that of the build whose manifest was, and of a cache
deleted, which is not that of a build being checked, the one kept in its place is complete. -/
def ResumeCareful (s : State) : Stage → Outcome → Prop
  | .addAll build _ _, .fetched url => url ∈ precacheUrls (manifestFiles build) →
    served digest s.deployed url = none ∨ served digest s.deployed url = served digest build url
  | .deleteOthers keep names, .deleted name => name ∈ names →
    (hasCompleteBuild s.caches name = true → hasCompleteBuild s.caches keep = true) ∧
      (name = cacheOf digest bundle s.deployed → ∀ task ∈ s.tasks, ¬ task.checking s)
  | _, _ => True

def Careful (s : State) : Act → Prop
  | .deploy build => ∀ former ∈ s.builds, buildId digest former = buildId digest build → shell digest former = shell digest build
  | .resume i outcome => ∀ task : Task, s.tasks[i]? = some task → ResumeCareful digest bundle s task.stage outcome
  | .fetch i url => ∀ (answered : List Answer) (hit : Answer), s.loads[i]? = some answered → answer s.caches url = some hit →
    ∀ former ∈ answered, hit.name = former.name
  | _ => True

def CacheOk (builds : List Build) (cache : Cache Str Str Body) : Prop :=
  cache.entries = [] ∨ ∃ build ∈ builds, cache.name = cacheOf digest bundle build ∧
    ∀ url, lookup cache.entries url = shell digest build url

def IsAt (caches : Caches) (handle : Nat) (name : Str) : Prop :=
  ∃ cache : Cache Str Str Body, caches[handle]? = some cache ∧ cache.name = name

def StageOk (builds : List Build) (caches : Caches) : Stage → Prop
  | .findBuild build | .openBuild build | .openCache build => build ∈ builds
  | .matchManifest build handle => build ∈ builds ∧ IsAt caches handle (cacheOf digest bundle build)
  | .addAll build handle fetched => build ∈ builds ∧ IsAt caches handle (cacheOf digest bundle build) ∧
    ∀ entry ∈ fetched, shell digest build entry.1 = some entry.2
  | .deleteOthers keep names => keep ∉ names
  | _ => True

def CheckOk (deployed : Build) (caches : Caches) : Stage → Prop
  | .findBuild build | .openBuild build | .openCache build => build = deployed
  | .matchManifest build handle | .addAll build handle _ => build = deployed ∧
    ∃ cache : Cache Str Str Body, caches[handle]? = some cache ∧ cache.live = true
  | .findOthers keep | .deleteOthers keep _ => keep = cacheOf digest bundle deployed ∧ hasCompleteBuild caches keep = true
  | _ => True

def AnswerOk (builds : List Build) (hit : Answer) : Prop :=
  ∃ build ∈ builds, hit.name = cacheOf digest bundle build ∧ shell digest build hit.url = some hit.body

structure Inv (s : State) : Prop where
  ids : ∀ build ∈ s.builds, ∀ other ∈ s.builds, buildId digest build = buildId digest other → shell digest build = shell digest other
  caches : ∀ cache ∈ s.caches, CacheOk digest bundle s.builds cache
  begun : ∀ task ∈ s.tasks, task.begun ≤ s.past.length
  stages : ∀ task ∈ s.tasks, StageOk digest bundle s.builds s.caches task.stage
  checks : ∀ task ∈ s.tasks, task.event = .checkUpdate → task.begun = s.past.length →
    CheckOk digest bundle s.deployed s.caches task.stage
  answers : ∀ answered ∈ s.loads, ∀ hit ∈ answered, AnswerOk digest bundle s.builds hit
  loads : ∀ answered ∈ s.loads, ∀ hit ∈ answered, ∀ other ∈ answered, hit.name = other.name

variable {digest bundle}

private theorem shell_manifest (build : Build) : shell digest build MANIFEST_NAME = some (.manifest (manifest digest build)) := by
  have hin : MANIFEST_NAME ∈ precacheUrls (manifestFiles build) := by
    rw [precacheUrls]
    split
    · assumption
    · exact mem_append_right _ (mem_singleton_self _)
  rw [shell, if_pos hin, served, if_pos rfl]

/-- Every file a manifest names is there to be fetched. -/
theorem isSome_shell_iff (build : Build) (url : Str) :
    (shell digest build url).isSome = true ↔ url ∈ precacheUrls (manifestFiles build) := by
  rw [shell]
  split
  · next hin =>
    refine iff_of_true ?_ hin
    rw [served]
    split
    · rfl
    · next hname =>
      have hfile : url ∈ manifestFiles build := by
        rw [precacheUrls] at hin
        split at hin
        · exact hin
        · exact (mem_append.mp hin).resolve_right fun h => hname (mem_singleton.mp h)
      have hkey : url ∈ keys build.files :=
        (mem_filter.mp ((perm_insertionSort _ _).mem_iff.mp hfile)).1
      rw [isSome_map, isSome_iff_ne_none, Ne, lookup_eq_none_iff]
      exact not_not_intro hkey
  · next hout => exact iff_of_false Bool.false_ne_true hout

private theorem cacheOf_inj {build other : Build} :
    cacheOf digest bundle build = cacheOf digest bundle other ↔ buildId digest build = buildId digest other := by
  rw [cacheOf, cacheOf, cacheName, cacheName, append_cancel_left_eq, List.cons.injEq]
  exact and_iff_right rfl

variable {caches : Caches}

private theorem hasCompleteBuild_iff {name : Str} :
    hasCompleteBuild caches name = true ↔
      ∃ cache ∈ caches, cache.live = true ∧ cache.name = name ∧ (lookup cache.entries MANIFEST_NAME).isSome = true := by
  rw [hasCompleteBuild, List.any_eq_true]
  simp only [Bool.and_eq_true, decide_eq_true_eq, and_assoc]

section Stands
variable {spared : Str → Prop} {caches caches' : Caches} (h : Stands spared caches caches')
include h

theorem IsAt.stands {handle : Nat} {name : Str} (hat : IsAt caches handle name) : IsAt caches' handle name := by
  obtain ⟨cache, hcache, hname⟩ := hat
  obtain ⟨cache', hcache', hname', -⟩ := h handle cache hcache
  exact ⟨cache', hcache', hname'.trans hname⟩

private theorem hasCompleteBuild_stands {name : Str} (hname : spared name) (hcomplete : hasCompleteBuild caches name = true) :
    hasCompleteBuild caches' name = true := by
  obtain ⟨cache, hin, hlive, rfl, hmanifest⟩ := hasCompleteBuild_iff.mp hcomplete
  obtain ⟨handle, hcache⟩ := mem_iff_getElem?.mp hin
  obtain ⟨cache', hcache', hname', hstands⟩ := h handle cache hcache
  obtain ⟨hlive', hurls⟩ := hstands hname hlive
  exact hasCompleteBuild_iff.mpr ⟨cache', mem_of_getElem? hcache', hlive', hname', hurls _ hmanifest⟩

theorem StageOk.stands {builds : List Build} {stage : Stage} (hok : StageOk digest bundle builds caches stage) :
    StageOk digest bundle builds caches' stage := by
  cases stage with
  | matchManifest build handle => exact ⟨hok.1, hok.2.stands h⟩
  | addAll build handle fetched => exact ⟨hok.1, hok.2.1.stands h, hok.2.2⟩
  | _ => exact hok

theorem CheckOk.stands {builds : List Build} {deployed : Build} {stage : Stage} (hok : CheckOk digest bundle deployed caches stage)
    (hstage : StageOk digest bundle builds caches stage) (hspared : stage.relies = true → spared (cacheOf digest bundle deployed)) :
    CheckOk digest bundle deployed caches' stage := by
  have hlive {handle : Nat} (hat : IsAt caches handle (cacheOf digest bundle deployed)) (hs : spared (cacheOf digest bundle deployed))
      (hopen : ∃ cache : Cache Str Str Body, caches[handle]? = some cache ∧ cache.live = true) :
      ∃ cache : Cache Str Str Body, caches'[handle]? = some cache ∧ cache.live = true := by
    obtain ⟨cache, hcache, hl⟩ := hopen
    obtain ⟨same, hsame, hname⟩ := hat
    obtain rfl := Option.some.inj (hcache.symm.trans hsame)
    obtain ⟨cache', hcache', -, hstands⟩ := h handle cache hcache
    exact ⟨cache', hcache', (hstands (hname ▸ hs) hl).1⟩
  cases stage with
  | matchManifest build handle =>
    obtain ⟨rfl, hopen⟩ := hok
    exact ⟨rfl, hlive hstage.2 (hspared rfl) hopen⟩
  | addAll build handle fetched =>
    obtain ⟨rfl, hopen⟩ := hok
    exact ⟨rfl, hlive hstage.2.1 (hspared rfl) hopen⟩
  | findOthers keep | deleteOthers keep names =>
    obtain ⟨rfl, hcomplete⟩ := hok
    exact ⟨rfl, hasCompleteBuild_stands h (hspared rfl) hcomplete⟩
  | _ => exact hok

end Stands

variable {builds : List Build}

section
variable (hcaches : ∀ cache ∈ caches, CacheOk digest bundle builds cache)
include hcaches

private theorem cacheOk_openCache (name : Str) : ∀ cache ∈ (CacheStorage.openCache caches name).1, CacheOk digest bundle builds cache := by
  intro cache hin
  obtain ⟨handle, hcache⟩ := mem_iff_getElem?.mp hin
  obtain hold | rfl := get_openCache hcache
  · exact hcaches cache (mem_of_getElem? hold)
  · exact .inl rfl

private theorem cacheOk_delete (name : Str) : ∀ cache ∈ CacheStorage.delete caches name, CacheOk digest bundle builds cache := by
  intro cache hin
  obtain ⟨former, hformer, rfl⟩ := mem_map.mp hin
  split
  · exact hcaches former hformer
  · exact hcaches former hformer

end

variable {s : State}

/-- Once a whole build is put into the cache of its name, the cache is that build. -/
theorem lookup_precached (hinv : Inv digest bundle s) {build : Build} (hbuild : build ∈ s.builds)
    {fetched : List (Str × Body)} (hfetched : ∀ entry ∈ fetched, shell digest build entry.1 = some entry.2)
    (hall : ∀ url ∈ precacheUrls (manifestFiles build), url ∈ keys fetched) {cache : Cache Str Str Body}
    (hcache : CacheOk digest bundle s.builds cache) (hname : cache.name = cacheOf digest bundle build) (url : Str) :
    lookup (putAll cache.entries fetched) url = shell digest build url := by
  by_cases hin : url ∈ keys fetched
  · obtain ⟨entry, hentry, rfl⟩ := mem_map.mp hin
    rw [hfetched entry hentry]
    refine lookup_putAll_of_mem hin (fun other hother hurl => ?_) _
    exact Option.some.inj ((hfetched other hother).symm.trans (hurl ▸ hfetched entry hentry))
  · have hnone : shell digest build url = none := by
      rw [← not_isSome_iff_eq_none, isSome_shell_iff]
      exact fun h => hin (hall url h)
    rw [lookup_putAll_of_not_mem hin, hnone]
    obtain hempty | ⟨held, hheld, hheldname, hlookup⟩ := hcache
    · rw [hempty]
      rfl
    · have hsame := hinv.ids held hheld build hbuild (cacheOf_inj.mp (hheldname.symm.trans hname))
      rw [hlookup, hsame, hnone]

private theorem cacheOk_addAll (hinv : Inv digest bundle s) {build : Build} {handle : Nat} {fetched : List (Str × Body)}
    (hstage : StageOk digest bundle s.builds s.caches (.addAll build handle fetched))
    (hall : ∀ url ∈ precacheUrls (manifestFiles build), url ∈ keys fetched) :
    ∀ cache ∈ CacheStorage.addAll s.caches handle fetched, CacheOk digest bundle s.builds cache := by
  obtain ⟨hbuild, ⟨opened, hopened, hname⟩, hfetched⟩ := hstage
  intro cache hin
  obtain ⟨place, hplace⟩ := mem_iff_getElem?.mp hin
  rw [get_addAll] at hplace
  obtain ⟨former, hformer, rfl⟩ := map_eq_some_iff.mp hplace
  have hok := hinv.caches former (mem_of_getElem? hformer)
  split
  · next hhandle =>
    obtain rfl := hhandle
    obtain rfl := Option.some.inj (hformer.symm.trans hopened)
    exact .inr ⟨build, hbuild, hname, lookup_precached hinv hbuild hfetched hall hok hname⟩
  · exact hok

private theorem isAt_openCache (caches : Caches) (name : Str) :
    IsAt (CacheStorage.openCache caches name).1 (CacheStorage.openCache caches name).2 name := by
  obtain ⟨cache, hcache, -, hname⟩ := openCache_opened caches name
  exact ⟨cache, hcache, hname⟩

variable {outcome : Outcome} {stage stage' : Stage} {caches' : Caches}

theorem advance_ok (hinv : Inv digest bundle s) {event : Event}
    (hstage : StageOk digest bundle s.builds s.caches stage)
    (hcareful : ResumeCareful digest bundle s stage outcome)
    (h : advance digest bundle s.deployed s.caches event stage outcome = some (caches', stage')) :
    (∀ cache ∈ caches', CacheOk digest bundle s.builds cache) ∧ StageOk digest bundle s.builds caches' stage' ∧
      Stands (fun name => outcome ≠ .deleted name) s.caches caches' := by
  have hdeployed : s.deployed ∈ s.builds := mem_cons_self
  cases stage with
  | fetchManifest =>
    cases outcome with
    | fail =>
      cases h
      exact ⟨hinv.caches, trivial, stands_refl _ _⟩
    | done =>
      cases event <;> cases h
      · exact ⟨hinv.caches, hdeployed, stands_refl _ _⟩
      · exact ⟨hinv.caches, trivial, stands_refl _ _⟩
      · exact ⟨hinv.caches, hdeployed, stands_refl _ _⟩
    | _ => cases h
  | findBuild build =>
    cases outcome with
    | done =>
      rw [advance] at h
      split at h
      · cases h
        exact ⟨hinv.caches, hstage, stands_refl _ _⟩
      · cases h
        exact ⟨hinv.caches, hstage, stands_refl _ _⟩
    | _ => cases h
  | openBuild build =>
    cases outcome with
    | done =>
      cases h
      exact ⟨cacheOk_openCache hinv.caches _, ⟨hstage, isAt_openCache _ _⟩, stands_openCache _ _ _⟩
    | _ => cases h
  | matchManifest build handle =>
    cases outcome with
    | done =>
      rw [advance] at h
      split at h
      · cases h
        exact ⟨hinv.caches, trivial, stands_refl _ _⟩
      · cases h
        exact ⟨hinv.caches, hstage.1, stands_refl _ _⟩
    | _ => cases h
  | openCache build =>
    cases outcome with
    | done =>
      cases h
      exact ⟨cacheOk_openCache hinv.caches _, ⟨hstage, isAt_openCache _ _, nofun⟩, stands_openCache _ _ _⟩
    | _ => cases h
  | addAll build handle fetched =>
    cases outcome with
    | fail =>
      cases h
      exact ⟨hinv.caches, trivial, stands_refl _ _⟩
    | fetched url =>
      rw [advance] at h
      split at h
      · next hurl =>
        obtain ⟨hbuild, hat, hfetched⟩ := hstage
        cases hbody : served digest s.deployed url with
        | none =>
          rw [hbody] at h
          cases h
          exact ⟨hinv.caches, trivial, stands_refl _ _⟩
        | some body =>
          rw [hbody] at h
          cases h
          refine ⟨hinv.caches, ⟨hbuild, hat, ?_⟩, stands_refl _ _⟩
          intro entry hentry
          obtain hold | rfl := (mem_append.mp hentry).imp_right mem_singleton.mp
          · exact hfetched entry hold
          · obtain hnone | hsame := hcareful hurl.1
            · rw [hbody] at hnone
              cases hnone
            · rw [shell, if_pos hurl.1, ← hsame, hbody]
      · cases h
    | done =>
      dsimp only [advance] at h
      split at h
      · next hall =>
        have hcaches := cacheOk_addAll hinv hstage hall
        cases event <;> cases h
        · exact ⟨hcaches, trivial, stands_addAll _ _ _ _⟩
        · exact ⟨hcaches, trivial, stands_addAll _ _ _ _⟩
        · exact ⟨hcaches, trivial, stands_addAll _ _ _ _⟩
      · cases h
    | deleted name => cases h
  | findOthers keep =>
    cases outcome with
    | done =>
      cases h
      refine ⟨hinv.caches, fun hin => ?_, stands_refl _ _⟩
      simpa using (mem_filter.mp hin).2
    | _ => cases h
  | deleteOthers keep names =>
    cases outcome with
    | deleted name =>
      rw [advance] at h
      split at h
      · cases h
        refine ⟨cacheOk_delete hinv.caches name, fun hin => hstage (mem_of_mem_erase hin), ?_⟩
        intro handle cache hcache
        obtain ⟨cache', hcache', hname, hstands⟩ := stands_delete s.caches name handle cache hcache
        exact ⟨cache', hcache', hname, fun hspared => hstands fun he => hspared (he ▸ rfl)⟩
      · cases h
    | done =>
      cases names with
      | nil =>
        cases h
        exact ⟨hinv.caches, trivial, stands_refl _ _⟩
      | cons name names => cases h
    | fail => cases h
    | fetched url => cases h
  | ended => cases h
  | failed => cases h

/-- What a check has is kept by each answer, and at its end the build deployed is complete. -/
theorem advance_checked (hinv : Inv digest bundle s)
    (hstage : StageOk digest bundle s.builds s.caches stage) (hcheck : CheckOk digest bundle s.deployed s.caches stage)
    (h : advance digest bundle s.deployed s.caches .checkUpdate stage outcome = some (caches', stage')) :
    CheckOk digest bundle s.deployed caches' stage' ∧
      (stage' = .ended → hasCompleteBuild caches' (cacheOf digest bundle s.deployed) = true) := by
  cases stage with
  | fetchManifest =>
    cases outcome with
    | fail =>
      cases h
      exact ⟨trivial, nofun⟩
    | done =>
      cases h
      exact ⟨rfl, nofun⟩
    | _ => cases h
  | findBuild build =>
    cases outcome with
    | done =>
      rw [advance] at h
      split at h
      · cases h
        exact ⟨hcheck, nofun⟩
      · cases h
        exact ⟨hcheck, nofun⟩
    | _ => cases h
  | openBuild build =>
    cases outcome with
    | done =>
      cases h
      obtain ⟨cache, hcache, hlive, -⟩ := openCache_opened s.caches (cacheName bundle (buildId digest build))
      exact ⟨⟨hcheck, cache, hcache, hlive⟩, nofun⟩
    | _ => cases h
  | matchManifest build handle =>
    obtain ⟨rfl, cache, hcache, hlive⟩ := hcheck
    cases outcome with
    | done =>
      rw [advance] at h
      split at h
      · next hmanifest =>
        cases h
        obtain ⟨-, same, hsame, hname⟩ := hstage
        obtain rfl := Option.some.inj (hcache.symm.trans hsame)
        rw [CacheStorage.read, hcache, bind_some] at hmanifest
        exact ⟨trivial, fun _ => hasCompleteBuild_iff.mpr ⟨cache, mem_of_getElem? hcache, hlive, hname, hmanifest⟩⟩
      · cases h
        exact ⟨rfl, nofun⟩
    | _ => cases h
  | openCache build =>
    cases outcome with
    | done =>
      cases h
      obtain ⟨cache, hcache, hlive, -⟩ := openCache_opened s.caches (cacheName bundle (buildId digest build))
      exact ⟨⟨hcheck, cache, hcache, hlive⟩, nofun⟩
    | _ => cases h
  | addAll build handle fetched =>
    obtain ⟨rfl, cache, hcache, hlive⟩ := hcheck
    cases outcome with
    | fail =>
      cases h
      exact ⟨trivial, nofun⟩
    | fetched url =>
      rw [advance] at h
      split at h
      · cases hbody : served digest s.deployed url with
        | none =>
          rw [hbody] at h
          cases h
          exact ⟨trivial, nofun⟩
        | some body =>
          rw [hbody] at h
          cases h
          exact ⟨⟨rfl, cache, hcache, hlive⟩, nofun⟩
      · cases h
    | done =>
      dsimp only [advance] at h
      split at h
      · next hall =>
        cases h
        obtain ⟨hbuild, ⟨same, hsame, hname⟩, hfetched⟩ := hstage
        obtain rfl := Option.some.inj (hcache.symm.trans hsame)
        have hput : (CacheStorage.addAll s.caches handle fetched)[handle]? =
            some { cache with entries := putAll cache.entries fetched } := by
          rw [get_addAll, hcache, map_some, if_pos rfl]
        refine ⟨⟨rfl, hasCompleteBuild_iff.mpr ⟨_, mem_of_getElem? hput, hlive, hname, ?_⟩⟩, nofun⟩
        rw [lookup_precached hinv hbuild hfetched hall (hinv.caches cache (mem_of_getElem? hcache)) hname, shell_manifest]
        rfl
      · cases h
    | deleted name => cases h
  | findOthers keep =>
    cases outcome with
    | done =>
      cases h
      exact ⟨hcheck, nofun⟩
    | _ => cases h
  | deleteOthers keep names =>
    obtain ⟨rfl, hcomplete⟩ := hcheck
    cases outcome with
    | deleted name =>
      rw [advance] at h
      split at h
      · next hin =>
        cases h
        have hne : cacheOf digest bundle s.deployed ≠ name := fun he => hstage (he ▸ hin)
        exact ⟨⟨rfl, hasCompleteBuild_stands (stands_delete s.caches name) hne hcomplete⟩, nofun⟩
      · cases h
    | done =>
      cases names with
      | nil =>
        cases h
        exact ⟨trivial, fun _ => hcomplete⟩
      | cons name names => cases h
    | fail => cases h
    | fetched url => cases h
  | ended => cases h
  | failed => cases h

theorem CacheOk.mono {cache : Cache Str Str Body} (h : CacheOk digest bundle builds cache) (build : Build) :
    CacheOk digest bundle (build :: builds) cache := by
  obtain hempty | ⟨held, hheld, hcache⟩ := h
  · exact .inl hempty
  · exact .inr ⟨held, mem_cons_of_mem _ hheld, hcache⟩

theorem StageOk.mono {stage : Stage} (h : StageOk digest bundle builds caches stage)
    (build : Build) : StageOk digest bundle (build :: builds) caches stage := by
  cases stage with
  | findBuild held | openBuild held | openCache held => exact mem_cons_of_mem _ h
  | matchManifest held handle | addAll held handle fetched => exact ⟨mem_cons_of_mem _ h.1, h.2⟩
  | _ => exact h

private theorem inv_deploy (hinv : Inv digest bundle s) {build : Build} (hcareful : Careful digest bundle s (.deploy build)) :
    Inv digest bundle (step digest bundle s (.deploy build)) where
  ids := by
    intro one hone other hother hid
    obtain rfl | hone := mem_cons.mp hone
    · obtain rfl | hother := mem_cons.mp hother
      · rfl
      · exact (hcareful other hother hid.symm).symm
    · obtain rfl | hother := mem_cons.mp hother
      · exact hcareful one hone hid
      · exact hinv.ids one hone other hother hid
  caches := fun cache hcache => (hinv.caches cache hcache).mono build
  begun := fun task htask => Nat.le_succ_of_le (hinv.begun task htask)
  stages := fun task htask => (hinv.stages task htask).mono build
  checks := fun task htask _ hbegun => absurd (hinv.begun task htask) (by
    rw [hbegun]
    exact Nat.not_succ_le_self _)
  answers := fun answered hanswered hit hhit =>
    Exists.imp (fun _ hheld => ⟨mem_cons_of_mem _ hheld.1, hheld.2⟩) (hinv.answers answered hanswered hit hhit)
  loads := hinv.loads

private theorem inv_dispatch (hinv : Inv digest bundle s) (event : Event) :
    Inv digest bundle (step digest bundle s (.dispatch event)) where
  ids := hinv.ids
  caches := hinv.caches
  begun := by
    intro task htask
    obtain hold | rfl := (mem_append.mp htask).imp_right mem_singleton.mp
    · exact hinv.begun task hold
    · exact Nat.le_refl _
  stages := by
    intro task htask
    obtain hold | rfl := (mem_append.mp htask).imp_right mem_singleton.mp
    · exact hinv.stages task hold
    · trivial
  checks := by
    intro task htask
    obtain hold | rfl := (mem_append.mp htask).imp_right mem_singleton.mp
    · exact hinv.checks task hold
    · exact fun _ _ => trivial
  answers := hinv.answers
  loads := hinv.loads

/-- The cache of the build deployed is not deleted while a check relies on it. -/
theorem unrelied_of_deleted {event : Event}
    (hcareful : ResumeCareful digest bundle s stage outcome)
    (h : advance digest bundle s.deployed s.caches event stage outcome = some (caches', stage'))
    (hdeleted : outcome = .deleted (cacheOf digest bundle s.deployed)) : ∀ task ∈ s.tasks, ¬ task.checking s := by
  obtain rfl := hdeleted
  cases stage with
  | deleteOthers keep names =>
    rw [advance] at h
    split at h
    · next hin => exact (hcareful hin).2 rfl
    · cases h
  | _ => cases h

section
variable (hinv : Inv digest bundle s)
include hinv

private theorem inv_resume {i : Nat}
    (hcareful : Careful digest bundle s (.resume i outcome)) : Inv digest bundle (step digest bundle s (.resume i outcome)) := by
  rw [step]
  cases htask : s.tasks[i]? with
  | none => exact hinv
  | some task =>
    dsimp only
    cases hadvance : advance digest bundle s.deployed s.caches task.event task.stage outcome with
    | none => exact hinv
    | some advanced =>
      obtain ⟨caches, stage⟩ := advanced
      have hin := mem_of_getElem? htask
      obtain ⟨hcaches, hstage, hstands⟩ := advance_ok hinv (hinv.stages task hin) (hcareful task htask) hadvance
      refine ⟨hinv.ids, hcaches, ?_, ?_, ?_, hinv.answers, hinv.loads⟩
      · intro other hother
        obtain hold | rfl := mem_or_eq_of_mem_set hother
        · exact hinv.begun other hold
        · exact hinv.begun task hin
      · intro other hother
        obtain hold | rfl := mem_or_eq_of_mem_set hother
        · exact (hinv.stages other hold).stands hstands
        · exact hstage
      · intro other hother hevent hbegun
        obtain hold | rfl := mem_or_eq_of_mem_set hother
        · refine (hinv.checks other hold hevent hbegun).stands hstands (hinv.stages other hold) fun hrelies hdeleted => ?_
          exact absurd ⟨hevent, hbegun, hrelies⟩ (unrelied_of_deleted (hcareful task htask) hadvance hdeleted other hold)
        · dsimp only at hevent hbegun ⊢
          rw [hevent] at hadvance
          exact (advance_checked hinv (hinv.stages task hin) (hinv.checks task hin hevent hbegun) hadvance).1

private theorem inv_load : Inv digest bundle (step digest bundle s .load) where
  ids := hinv.ids
  caches := hinv.caches
  begun := hinv.begun
  stages := hinv.stages
  checks := hinv.checks
  answers := by
    intro answered hanswered
    obtain hold | rfl := (mem_append.mp hanswered).imp_right mem_singleton.mp
    · exact hinv.answers answered hold
    · exact nofun
  loads := by
    intro answered hanswered
    obtain hold | rfl := (mem_append.mp hanswered).imp_right mem_singleton.mp
    · exact hinv.loads answered hold
    · exact nofun

private theorem answerOk_of_answer {url : Str} {hit : Answer}
    (h : answer s.caches url = some hit) : AnswerOk digest bundle s.builds hit := by
  rw [answer] at h
  split at h
  · cases h
  · obtain ⟨found, hfound, rfl⟩ := map_eq_some_iff.mp h
    obtain ⟨cache, hin, -, hname, hlookup⟩ := matchAll_some hfound
    obtain hempty | ⟨build, hbuild, hcachename, hshell⟩ := hinv.caches cache hin
    · rw [hempty] at hlookup
      cases hlookup
    · exact ⟨build, hbuild, hname.symm.trans hcachename, (hshell url).symm.trans hlookup⟩

theorem inv_fetch {i : Nat} {url : Str}
    (hcareful : Careful digest bundle s (.fetch i url)) : Inv digest bundle (step digest bundle s (.fetch i url)) := by
  rw [step]
  cases hanswer : answer s.caches url with
  | none => exact hinv
  | some hit =>
    have hloads {answered : List Answer} (hin : answered ∈ s.loads.modify i (· ++ [hit])) :
        answered ∈ s.loads ∨ ∃ former, s.loads[i]? = some former ∧ answered = former ++ [hit] := by
      obtain ⟨j, hj⟩ := mem_iff_getElem?.mp hin
      rw [List.getElem?_modify] at hj
      obtain ⟨former, hformer, rfl⟩ := map_eq_some_iff.mp hj
      split
      · next hij => exact .inr ⟨former, hij ▸ hformer, rfl⟩
      · exact .inl (mem_of_getElem? hformer)
    refine ⟨hinv.ids, hinv.caches, hinv.begun, hinv.stages, hinv.checks, ?_, ?_⟩
    · intro answered hanswered other hother
      obtain hold | ⟨former, hformer, rfl⟩ := hloads hanswered
      · exact hinv.answers answered hold other hother
      · obtain hold | rfl := (mem_append.mp hother).imp_right mem_singleton.mp
        · exact hinv.answers former (mem_of_getElem? hformer) other hold
        · exact answerOk_of_answer hinv hanswer
    · intro answered hanswered one hone other hother
      obtain hold | ⟨former, hformer, rfl⟩ := hloads hanswered
      · exact hinv.loads answered hold one hone other hother
      · have hsame := hcareful former hit hformer hanswer
        obtain hformerOne | rfl := (mem_append.mp hone).imp_right mem_singleton.mp
        · obtain hformerOther | rfl := (mem_append.mp hother).imp_right mem_singleton.mp
          · exact hinv.loads former (mem_of_getElem? hformer) one hformerOne other hformerOther
          · exact (hsame one hformerOne).symm
        · obtain hformerOther | rfl := (mem_append.mp hother).imp_right mem_singleton.mp
          · exact hsame other hformerOther
          · rfl

private theorem inv_step {act : Act} (hcareful : Careful digest bundle s act) :
    Inv digest bundle (step digest bundle s act) := by
  cases act with
  | deploy build => exact inv_deploy hinv hcareful
  | dispatch event => exact inv_dispatch hinv event
  | resume i outcome => exact inv_resume hinv hcareful
  | load => exact inv_load hinv
  | fetch i url => exact inv_fetch hinv hcareful

end

theorem inv_start (build : Build) : Inv digest bundle (start build) where
  ids := by
    intro one hone other hother _
    rw [mem_singleton.mp hone, mem_singleton.mp hother]
  caches := nofun
  begun := nofun
  stages := nofun
  checks := nofun
  answers := nofun
  loads := nofun

theorem Inv.whole (hinv : Inv digest bundle s) : Whole digest s where
  caches := by
    intro cache hin _ hmanifest
    obtain hempty | ⟨build, hbuild, -, hlookup⟩ := hinv.caches cache hin
    · rw [hempty] at hmanifest
      cases hmanifest
    · exact ⟨build, hbuild, hlookup⟩
  loads := by
    intro answered hin
    cases answered with
    | nil => exact ⟨s.deployed, mem_cons_self, nofun⟩
    | cons first rest =>
      obtain ⟨build, hbuild, hname, -⟩ := hinv.answers _ hin first mem_cons_self
      refine ⟨build, hbuild, fun hit hhit => ?_⟩
      obtain ⟨other, hother, hothername, hbody⟩ := hinv.answers _ hin hit hhit
      have hsame : cacheOf digest bundle build = cacheOf digest bundle other :=
        hname.symm.trans ((hinv.loads _ hin first mem_cons_self hit hhit).trans hothername)
      rw [hinv.ids build hbuild other hother (cacheOf_inj.mp hsame), hbody]

theorem Inv.holds (hinv : Inv digest bundle s)
    (h : hasCompleteBuild s.caches (cacheOf digest bundle s.deployed) = true) : Holds digest bundle s.caches s.deployed := by
  obtain ⟨cache, hin, hlive, hname, hmanifest⟩ := hasCompleteBuild_iff.mp h
  obtain hempty | ⟨build, hbuild, hheld, hlookup⟩ := hinv.caches cache hin
  · rw [hempty] at hmanifest
    cases hmanifest
  · refine ⟨cache, hin, hlive, hname, fun url => ?_⟩
    rw [hlookup, hinv.ids build hbuild s.deployed mem_cons_self (cacheOf_inj.mp (hheld.symm.trans hname))]

private theorem kept_of_same {s s' : State} (hcaches : s'.caches = s.caches)
    (htasks : ∀ (i : Nat) (task : Task), s.tasks[i]? = some task → s'.tasks[i]? = some task) : Kept digest bundle s s' where
  complete := fun h => hcaches ▸ h
  checked := by
    intro i task task' htask htask' _ _ hrunning hended
    obtain rfl := Option.some.inj ((htasks i task htask).symm.trans htask')
    exact absurd hended hrunning

private theorem complete_of_advance {event : Event}
    (hstage : StageOk digest bundle s.builds s.caches stage) (hcareful : ResumeCareful digest bundle s stage outcome)
    (hstands : Stands (fun name => outcome ≠ .deleted name) s.caches caches')
    (h : advance digest bundle s.deployed s.caches event stage outcome = some (caches', stage')) {name : Str}
    (hcomplete : hasCompleteBuild s.caches name = true) : ∃ name, hasCompleteBuild caches' name = true := by
  by_cases hdeleted : outcome = .deleted name
  · obtain rfl := hdeleted
    cases stage with
    | deleteOthers keep names =>
      rw [advance] at h
      split at h
      · next hin =>
        have hspared : Outcome.deleted name ≠ .deleted keep := fun he => hstage (Outcome.deleted.inj he ▸ hin)
        exact ⟨keep, hasCompleteBuild_stands hstands hspared ((hcareful hin).1 hcomplete)⟩
      · cases h
    | _ => cases h
  · exact ⟨name, hasCompleteBuild_stands hstands hdeleted hcomplete⟩

theorem kept_resume (hinv : Inv digest bundle s) {i : Nat}
    (hcareful : Careful digest bundle s (.resume i outcome)) :
    Kept digest bundle s (step digest bundle s (.resume i outcome)) := by
  have hinv' := inv_resume hinv hcareful
  rw [step] at hinv' ⊢
  cases htask : s.tasks[i]? with
  | none => exact kept_of_same rfl fun _ _ h => h
  | some task =>
    rw [htask] at hinv'
    dsimp only at hinv' ⊢
    cases hadvance : advance digest bundle s.deployed s.caches task.event task.stage outcome with
    | none => exact kept_of_same rfl fun _ _ h => h
    | some advanced =>
      obtain ⟨caches, stage⟩ := advanced
      rw [hadvance] at hinv'
      have hin := mem_of_getElem? htask
      have hstage := hinv.stages task hin
      obtain ⟨-, -, hstands⟩ := advance_ok hinv hstage (hcareful task htask) hadvance
      refine ⟨fun h => ?_, ?_⟩
      · obtain ⟨name, hcomplete⟩ := h
        exact complete_of_advance hstage (hcareful task htask) hstands hadvance hcomplete
      · intro j other other' hother hother' hevent hbegun hrunning hended
        dsimp only at hother' hbegun ⊢
        by_cases hij : i = j
        · obtain rfl := hij
          obtain rfl := Option.some.inj (htask.symm.trans hother)
          rw [List.getElem?_set_self (List.getElem?_eq_some_iff.mp htask).1] at hother'
          obtain rfl := Option.some.inj hother'
          rw [hevent] at hadvance
          exact hinv'.holds ((advance_checked hinv hstage (hinv.checks task hin hevent hbegun) hadvance).2 hended)
        · rw [List.getElem?_set_ne hij, hother] at hother'
          obtain rfl := Option.some.inj hother'
          exact absurd hended hrunning

theorem kept_step (hinv : Inv digest bundle s) {act : Act} (hcareful : Careful digest bundle s act) :
    Kept digest bundle s (step digest bundle s act) := by
  cases act with
  | deploy build => exact kept_of_same rfl fun _ _ h => h
  | dispatch event =>
    refine kept_of_same rfl fun i task h => ?_
    rw [step]
    exact List.getElem?_append_left (List.getElem?_eq_some_iff.mp h).1 ▸ h
  | resume i outcome => exact kept_resume hinv hcareful
  | load => exact kept_of_same rfl fun _ _ h => h
  | fetch i url =>
    rw [step]
    cases answer s.caches url with
    | none => exact kept_of_same rfl fun _ _ h => h
    | some hit => exact kept_of_same rfl fun _ _ h => h

/-- In a run whose steps are careful every state is whole, and every next step keeps what it is to keep. -/
theorem careful_whole {build : Build} {acts : List Act}
    (hcareful : Each (step digest bundle) (Careful digest bundle) (start build) acts) :
    ∀ before after, acts = before ++ after → Whole digest (run (step digest bundle) (start build) before) ∧
      ∀ act rest, after = act :: rest → Kept digest bundle (run (step digest bundle) (start build) before)
        (run (step digest bundle) (start build) (before ++ [act])) := by
  intro before after hacts
  rw [hacts, each_append] at hcareful
  obtain ⟨hbefore, hafter⟩ := hcareful
  have hinv : Inv digest bundle (run (step digest bundle) (start build) before) :=
    hbefore.invariant _ (fun s act hinv hok => inv_step hinv hok) (inv_start build)
  refine ⟨hinv.whole, fun act rest hact => ?_⟩
  rw [hact] at hafter
  rw [run_append]
  exact kept_step hinv hafter.1

def sha256 (content : Bytes) : Str :=
  if content = [1] then lit "4bf5122f344554c53bde2ebb8cd2b7e3d1600ad631c385a5d7cce23c7785459a"
  else lit "dbc1b4c900ffe48d575b5da5c638040125f65db0fe3e24494b76ea986457d986"

def clientBuild (page wasm : UInt8) : Build where
  files := [(lit "index.html", [page]), (lit "client.wasm", [wasm])]
  wasm := lit "client.wasm"
  nodup := by
    change [lit "index.html", lit "client.wasm"].Nodup
    decide
  has_wasm := by
    change lit "client.wasm" ∈ [lit "index.html", lit "client.wasm"]
    decide

def precaching (i : Nat) (first second : Str) : List Act :=
  [.resume i .done, .resume i (.fetched first), .resume i (.fetched second), .resume i (.fetched MANIFEST_NAME), .resume i .done]

def wholeCheck : List Act :=
  [.dispatch .checkUpdate, .resume 0 .done, .resume 0 .done] ++ precaching 0 (lit "index.html") (lit "client.wasm") ++
    [.resume 0 .done, .resume 0 .done]

/-- A second check, after a deploy of another page with the same module. -/
def pageDeployed : List Act := wholeCheck ++
  [.deploy (clientBuild 2 1), .dispatch .checkUpdate, .resume 1 .done, .resume 1 .done, .resume 1 .done, .resume 1 .done]

/-- A deploy lands between two fetches of an install. -/
def overtaken : List Act :=
  [.dispatch .install, .resume 0 .done, .resume 0 .done, .resume 0 (.fetched (lit "index.html")), .deploy (clientBuild 2 2),
    .resume 0 (.fetched (lit "client.wasm")), .resume 0 (.fetched MANIFEST_NAME), .resume 0 .done]

private theorem wholeCheck_careful :
    Each (step sha256 (lit "client")) (Careful sha256 (lit "client")) (start (clientBuild 1 1)) wholeCheck := by
  have htask {P : Stage → Outcome → Prop} {stage : Stage} {outcome : Outcome} (h : P stage outcome) :
      ∀ task : Task, ([⟨.checkUpdate, 0, stage⟩] : List Task)[0]? = some task → P task.stage outcome := by
    intro task he
    obtain rfl := Option.some.inj he
    exact h
  refine ⟨trivial, htask trivial, htask trivial, htask trivial, htask fun _ => .inr rfl, htask fun _ => .inr rfl,
    htask fun _ => .inr rfl, htask trivial, htask trivial, htask trivial, trivial⟩

/-- A page load, a deploy of another build, the check that stores it and sweeps the old cache, and the next page load. -/
def updated : List Act := wholeCheck ++
  ([.load, .fetch 0 (lit "index.html"), .deploy (clientBuild 2 2), .dispatch .checkUpdate, .resume 1 .done, .resume 1 .done] ++
    precaching 1 (lit "client.wasm") (lit "index.html") ++
    [.resume 1 .done, .resume 1 (.deleted (cacheName (lit "client") (sha256 [1]))), .resume 1 .done, .load,
      .fetch 1 (lit "index.html"), .fetch 1 (lit "client.wasm")])

private theorem updated_careful :
    Each (step sha256 (lit "client")) (Careful sha256 (lit "client")) (start (clientBuild 1 1)) updated := by
  refine (each_append _ _ _).mpr ⟨wholeCheck_careful, ?_⟩
  have htask {P : Stage → Outcome → Prop} {stage : Stage} {outcome : Outcome} (h : P stage outcome) :
      ∀ task : Task, ([⟨.checkUpdate, 0, .ended⟩, ⟨.checkUpdate, 1, stage⟩] : List Task)[1]? = some task →
        P task.stage outcome := by
    intro task he
    obtain rfl := Option.some.inj he
    exact h
  have hids : cacheName (lit "client") (sha256 [1]) ≠ cacheName (lit "client") (sha256 [2]) := by decide
  refine ⟨trivial, ?_, ?_, trivial, htask trivial, htask trivial, htask trivial, htask fun _ => .inr rfl, htask fun _ => .inr rfl,
    htask fun _ => .inr rfl, htask trivial, htask trivial, htask fun _ => ⟨fun _ => rfl, fun h => absurd h hids⟩,
    htask trivial, trivial, ?_, ?_, trivial⟩
  · intro answered hit hload hhit former hformer
    obtain rfl := Option.some.inj hload
    cases hformer
  · intro former hin hid
    obtain rfl := mem_singleton.mp hin
    exact absurd hid (by decide)
  · intro answered hit hload hhit former hformer
    obtain rfl := Option.some.inj hload
    cases hformer
  · intro answered hit hload hhit former hformer
    obtain rfl := Option.some.inj hload
    obtain rfl := Option.some.inj hhit
    obtain rfl := mem_singleton.mp hformer
    rfl

theorem careful_whole_check :
    Each (step sha256 (lit "client")) (Careful sha256 (lit "client")) (start (clientBuild 1 1)) updated ∧
      ∀ before after, updated = before ++ after →
        Whole sha256 (run (step sha256 (lit "client")) (start (clientBuild 1 1)) before) ∧
        ∀ act rest, after = act :: rest →
          Kept sha256 (lit "client") (run (step sha256 (lit "client")) (start (clientBuild 1 1)) before)
            (run (step sha256 (lit "client")) (start (clientBuild 1 1)) (before ++ [act])) :=
  ⟨updated_careful, careful_whole updated_careful⟩

/-- A deploy of the page alone is never seen, and one that lands in a precache leaves a cache of two builds. -/
theorem halves_kept :
    ¬ Kept sha256 (lit "client") (run (step sha256 (lit "client")) (start (clientBuild 1 1)) pageDeployed.dropLast)
        (run (step sha256 (lit "client")) (start (clientBuild 1 1)) pageDeployed) ∧
      ¬ Whole sha256 (run (step sha256 (lit "client")) (start (clientBuild 1 1)) overtaken) := by
  constructor
  · intro hkept
    have hcaches : (run (step sha256 (lit "client")) (start (clientBuild 1 1)) pageDeployed).caches =
        [⟨cacheName (lit "client") (sha256 [1]), true, [(lit "index.html", .bytes [1]), (lit "client.wasm", .bytes [1]),
          (MANIFEST_NAME, .manifest (manifest sha256 (clientBuild 1 1)))]⟩] := rfl
    have hholds := hkept.checked 1 ⟨.checkUpdate, 1, .matchManifest (clientBuild 2 1) 0⟩ ⟨.checkUpdate, 1, .ended⟩ rfl rfl rfl rfl
      nofun rfl
    obtain ⟨cache, hin, -, -, hlookup⟩ := hholds
    rw [hcaches, mem_singleton] at hin
    obtain rfl := hin
    exact absurd (hlookup (lit "index.html")) (by decide)
  · intro hwhole
    have hcaches : (run (step sha256 (lit "client")) (start (clientBuild 1 1)) overtaken).caches =
        [⟨cacheName (lit "client") (sha256 [1]), true, [(lit "index.html", .bytes [1]), (lit "client.wasm", .bytes [2]),
          (MANIFEST_NAME, .manifest (manifest sha256 (clientBuild 2 2)))]⟩] := rfl
    obtain ⟨build, hbuild, hlookup⟩ := hwhole.caches _ (hcaches ▸ mem_singleton_self _) rfl rfl
    have hbuilds : build = clientBuild 2 2 ∨ build = clientBuild 1 1 := by
      obtain rfl | hbuild := mem_cons.mp hbuild
      · exact .inl rfl
      · exact .inr (mem_singleton.mp hbuild)
    obtain rfl | rfl := hbuilds
    · exact absurd (hlookup (lit "index.html")) (by decide)
    · exact absurd (hlookup (lit "client.wasm")) (by decide)

end SynQt.ClientShell
