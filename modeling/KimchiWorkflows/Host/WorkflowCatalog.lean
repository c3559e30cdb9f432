import Mathlib.Data.Char
import Mathlib.Data.List.DropRight
import Mathlib.Data.List.Induction
import Mathlib.Data.List.Lex
import KimchiWorkflows.Host.Telemetry
import KimchiWorkflows.Lib.Json

/-!
The workflow catalog: which files the two layers list, and which file a name is run from.
-/

namespace KimchiWorkflows.Host.WorkflowCatalog

open Json KimchiWorkflows.Host.Telemetry

def workflowSuffix : Text := ".workflow.ts".toList

def typeScriptSuffix : Text := ".ts".toList

inductive WorkflowScope where
  | project | global
  deriving DecidableEq

structure LoadedWorkflow where
  name : Text
  description : Option Text := none

structure WorkflowEntry where
  identity : Text
  name : Text
  description : Option Text
  filePath : Text
  scope : WorkflowScope

structure BrokenWorkflow where
  filePath : Text
  error : Text

structure Catalog where
  entries : List WorkflowEntry
  broken : List BrokenWorkflow

structure Platform where
  projectDir : Text
  globalDir : Text
  join : Text → Text → Text
  resolve : Text → Text
  basename : Text → Text
  readdir : Text → List Text
  existsSync : Text → Bool
  localeOrder : Text → Text → Bool

abbrev WorkflowLoader := Text → Except Text LoadedWorkflow

inductive WorkflowResolution where
  | ok (workflow : LoadedWorkflow) (filePath : Text)
  | error (error : Text)

def withoutSuffix (suffix text : Text) : Text := text.take (text.length - suffix.length)

section Catalog

variable (platform : Platform)

def workflowsDir : WorkflowScope → Text
  | .project => platform.projectDir
  | .global => platform.globalDir

def workflowFileIdentity (filePath : Text) : Text :=
  let fileName := platform.basename filePath
  if workflowSuffix.isSuffixOf fileName then withoutSuffix workflowSuffix fileName
  else if typeScriptSuffix.isSuffixOf fileName then withoutSuffix typeScriptSuffix fileName
  else fileName

def bindWorkflowIdentity (workflow : LoadedWorkflow) (identity : Text) : LoadedWorkflow :=
  if workflow.name = identity then workflow else { workflow with name := identity }

def workflowFiles (dir : Text) : List Text :=
  (((platform.readdir dir).filter (fun name => workflowSuffix.isSuffixOf name)).mergeSort
    (fun a b => decide (a.flatMap codeUnits ≤ b.flatMap codeUnits))).map (platform.join dir)

def listWorkflowIdentities : List Text :=
  ((workflowFiles platform platform.projectDir ++ workflowFiles platform platform.globalDir).map
    (workflowFileIdentity platform)).eraseDups.mergeSort platform.localeOrder

def scanWorkflowDir (scope : WorkflowScope) (load : WorkflowLoader) : Catalog :=
  (workflowFiles platform (workflowsDir platform scope)).foldl (fun catalog filePath =>
    match load filePath with
    | .ok workflow =>
      { catalog with
        entries := catalog.entries ++ [{
          identity := workflowFileIdentity platform filePath
          name := workflow.name
          description := workflow.description
          filePath := filePath
          scope := scope }] }
    | .error error => { catalog with broken := catalog.broken ++ [{ filePath := filePath, error := error }] })
    { entries := [], broken := [] }

/-- The project's file shadows a global one of its identity; broken files are never hidden. -/
def discoverWorkflows (load : WorkflowLoader) : Catalog :=
  let project := scanWorkflowDir platform .project load
  let global := scanWorkflowDir platform .global load
  let shadowed := project.entries.map WorkflowEntry.identity
  { entries := (project.entries ++ global.entries.filter (fun entry => decide (entry.identity ∉ shadowed))).mergeSort
      (fun a b => platform.localeOrder a.identity b.identity)
    broken := project.broken ++ global.broken }

/-- The file an argument names: a path, or an identity in the project's layer and then the global one. -/
def locateWorkflow (arg : Text) : Option Text :=
  if typeScriptSuffix.isSuffixOf arg then
    if platform.existsSync (platform.resolve arg) then some (platform.resolve arg) else none
  else
    let filePath := platform.join platform.projectDir (arg ++ workflowSuffix)
    let globalFilePath := platform.join platform.globalDir (arg ++ workflowSuffix)
    if platform.existsSync filePath then some filePath
    else if platform.existsSync globalFilePath then some globalFilePath
    else none

def unresolved (arg : Text) : Text :=
  if typeScriptSuffix.isSuffixOf arg then "workflow: file does not exist\n  ".toList ++ platform.resolve arg
  else
    let known := listWorkflowIdentities platform
    let hint := if 0 < known.length then "\n  Known workflows: ".toList ++ (", ".toList).intercalate known else []
    "workflow: cannot find \"".toList ++ arg ++ "\"\n  Looked for: ".toList ++
      platform.join platform.projectDir (arg ++ workflowSuffix) ++ hint

def loadAsResolution (filePath arg : Text) (load : WorkflowLoader) : WorkflowResolution :=
  match load filePath with
  | .ok workflow => .ok (bindWorkflowIdentity workflow (workflowFileIdentity platform filePath)) filePath
  | .error error => .error ("workflow \"".toList ++ arg ++ "\" could not load\n  File: ".toList ++ filePath ++
      "\n  ".toList ++ error)

def resolveWorkflow (arg : Text) (load : WorkflowLoader) : WorkflowResolution :=
  match locateWorkflow platform arg with
  | some filePath => loadAsResolution platform filePath arg load
  | none => .error (unresolved platform arg)

end Catalog

def Plain (name : Text) : Prop := '/' ∉ name

/-- How a file system behaves that tells cases apart and has no dangling links: a directory lists plain names, and the
workflow files it lists are those that exist in it. -/
structure Consistent (platform : Platform) : Prop where
  plain : ∀ dir, ∀ name ∈ platform.readdir dir, Plain name
  listed : ∀ dir identity, Plain identity →
    (platform.existsSync (platform.join dir (identity ++ workflowSuffix)) = true ↔
      identity ++ workflowSuffix ∈ platform.readdir dir)
  basename : ∀ dir identity, Plain identity →
    platform.basename (platform.join dir (identity ++ workflowSuffix)) = identity ++ workflowSuffix

variable {platform : Platform} {load : WorkflowLoader} {identity name dir filePath : Text} {scope : WorkflowScope}
  {entry : WorkflowEntry}

theorem workflowsDir_project (platform : Platform) : workflowsDir platform .project = platform.projectDir := rfl

theorem workflowsDir_global (platform : Platform) : workflowsDir platform .global = platform.globalDir := rfl

theorem withoutSuffix_append (suffix text : Text) : withoutSuffix suffix (text ++ suffix) = text := by
  rw [withoutSuffix, List.length_append, Nat.add_sub_cancel, List.take_left']
  rfl

theorem plain_append : Plain (identity ++ workflowSuffix) ↔ Plain identity := by
  have hs : '/' ∉ workflowSuffix := by decide
  simp [Plain, hs]

theorem identity_join (h : Consistent platform) (dir : Text) (hp : Plain identity) :
    workflowFileIdentity platform (platform.join dir (identity ++ workflowSuffix)) = identity := by
  have hs : workflowSuffix.isSuffixOf (identity ++ workflowSuffix) = true :=
    List.isSuffixOf_iff_suffix.mpr (List.suffix_append _ _)
  rw [workflowFileIdentity, h.basename dir _ hp, if_pos hs, withoutSuffix_append]

theorem mem_workflowFiles (h : Consistent platform) : filePath ∈ workflowFiles platform dir ↔
    ∃ identity, Plain identity ∧ identity ++ workflowSuffix ∈ platform.readdir dir ∧
      filePath = platform.join dir (identity ++ workflowSuffix) := by
  simp only [workflowFiles, List.mem_map, List.mem_mergeSort, List.mem_filter]
  constructor
  · rintro ⟨name, ⟨hm, hs⟩, rfl⟩
    obtain ⟨identity, rfl⟩ := List.isSuffixOf_iff_suffix.mp hs
    exact ⟨identity, plain_append.mp (h.plain dir _ hm), hm, rfl⟩
  · rintro ⟨identity, -, hm, rfl⟩
    exact ⟨_, ⟨hm, List.isSuffixOf_iff_suffix.mpr (List.suffix_append _ _)⟩, rfl⟩

def entryOf (platform : Platform) (scope : WorkflowScope) (load : WorkflowLoader) (filePath : Text) :
    Option WorkflowEntry :=
  match load filePath with
  | .ok workflow => some {
      identity := workflowFileIdentity platform filePath
      name := workflow.name
      description := workflow.description
      filePath := filePath
      scope := scope }
  | .error _ => none

def brokenOf (load : WorkflowLoader) (filePath : Text) : Option BrokenWorkflow :=
  match load filePath with
  | .ok _ => none
  | .error error => some { filePath := filePath, error := error }

theorem scanWorkflowDir_eq (platform : Platform) (scope : WorkflowScope) (load : WorkflowLoader) :
    scanWorkflowDir platform scope load =
      { entries := (workflowFiles platform (workflowsDir platform scope)).filterMap (entryOf platform scope load)
        broken := (workflowFiles platform (workflowsDir platform scope)).filterMap (brokenOf load) } := by
  rw [scanWorkflowDir]
  generalize workflowFiles platform (workflowsDir platform scope) = files
  induction files using List.reverseRecOn with
  | nil => rfl
  | append_singleton files filePath ih =>
    rw [List.foldl_append, ih, List.filterMap_append, List.filterMap_append]
    cases hl : load filePath with
    | ok workflow => simp [hl, entryOf, brokenOf]
    | error error => simp [hl, entryOf, brokenOf]

theorem mem_scan_entries (h : Consistent platform) : entry ∈ (scanWorkflowDir platform scope load).entries ↔
    entry.scope = scope ∧ Plain entry.identity ∧
      entry.identity ++ workflowSuffix ∈ platform.readdir (workflowsDir platform scope) ∧
      entry.filePath = platform.join (workflowsDir platform scope) (entry.identity ++ workflowSuffix) ∧
      load entry.filePath = .ok { name := entry.name, description := entry.description } := by
  rw [scanWorkflowDir_eq]
  simp only [List.mem_filterMap, mem_workflowFiles h]
  constructor
  · rintro ⟨_, ⟨identity, hp, hm, rfl⟩, he⟩
    unfold entryOf at he
    split at he
    · rename_i workflow hl
      cases he
      rw [identity_join h _ hp]
      exact ⟨rfl, hp, hm, rfl, hl⟩
    · cases he
  · rintro ⟨hs, hp, hm, hf, hl⟩
    refine ⟨entry.filePath, ⟨entry.identity, hp, hm, hf⟩, ?_⟩
    unfold entryOf
    have hid : workflowFileIdentity platform entry.filePath = entry.identity := by rw [hf, identity_join h _ hp]
    simp only [hl, hid, ← hs]

theorem mem_scan_broken (h : Consistent platform) {broken : BrokenWorkflow} :
    broken ∈ (scanWorkflowDir platform scope load).broken ↔ ∃ identity, Plain identity ∧
      identity ++ workflowSuffix ∈ platform.readdir (workflowsDir platform scope) ∧
      broken.filePath = platform.join (workflowsDir platform scope) (identity ++ workflowSuffix) ∧
      load broken.filePath = .error broken.error := by
  rw [scanWorkflowDir_eq]
  simp only [List.mem_filterMap, mem_workflowFiles h]
  constructor
  · rintro ⟨filePath, ⟨identity, hp, hm, hf⟩, hb⟩
    unfold brokenOf at hb
    split at hb
    · cases hb
    · rename_i error hl
      cases hb
      exact ⟨identity, hp, hm, hf, hl⟩
  · rintro ⟨identity, hp, hm, hf, hl⟩
    refine ⟨broken.filePath, ⟨identity, hp, hm, hf⟩, ?_⟩
    unfold brokenOf
    rw [hl]

theorem exists_join (h : Consistent platform) (scope : WorkflowScope) (hp : Plain identity) :
    platform.existsSync (platform.join (workflowsDir platform scope) (identity ++ workflowSuffix)) = true ↔
      identity ++ workflowSuffix ∈ platform.readdir (workflowsDir platform scope) :=
  h.listed _ _ hp

/-- An identity is looked up in the project's layer, and in the global one if the project has no file for it. -/
theorem locateWorkflow_identity (h : Consistent platform) (hp : Plain identity)
    (hts : typeScriptSuffix.isSuffixOf identity = false) : locateWorkflow platform identity =
      if identity ++ workflowSuffix ∈ platform.readdir platform.projectDir then
        some (platform.join platform.projectDir (identity ++ workflowSuffix))
      else if identity ++ workflowSuffix ∈ platform.readdir platform.globalDir then
        some (platform.join platform.globalDir (identity ++ workflowSuffix))
      else none := by
  have hproject := exists_join h .project hp
  have hglobal := exists_join h .global hp
  rw [workflowsDir_project] at hproject
  rw [workflowsDir_global] at hglobal
  simp only [locateWorkflow, hts, Bool.false_eq_true, if_false, hproject, hglobal]

theorem bindWorkflowIdentity_eq (workflow : LoadedWorkflow) (identity : Text) :
    bindWorkflowIdentity workflow identity = { workflow with name := identity } := by
  unfold bindWorkflowIdentity
  split_ifs with hn
  · rw [← hn]
  · rfl

theorem resolveWorkflow_identity (h : Consistent platform) (hp : Plain identity)
    (hts : typeScriptSuffix.isSuffixOf identity = false) {workflow : LoadedWorkflow}
    (hr : resolveWorkflow platform identity load = .ok workflow filePath) :
    locateWorkflow platform identity = some filePath ∧
      ∃ loaded, load filePath = .ok loaded ∧ workflow = { loaded with name := identity } := by
  unfold resolveWorkflow at hr
  split at hr
  · rename_i located hlocated
    have hid : workflowFileIdentity platform located = identity := by
      rw [locateWorkflow_identity h hp hts] at hlocated
      split_ifs at hlocated
      · rw [← Option.some.inj hlocated, identity_join h _ hp]
      · rw [← Option.some.inj hlocated, identity_join h _ hp]
    unfold loadAsResolution at hr
    split at hr
    · rename_i loaded hl
      rw [hid, bindWorkflowIdentity_eq] at hr
      cases hr
      exact ⟨hlocated, loaded, hl, rfl⟩
    · cases hr
  · cases hr

/-- What is listed under an identity is what the identity is run from, and under that name, unless the project's own
file of that identity is broken: then that file is run, and it is among the broken ones. -/
structure RunAsListed (platform : Platform) (catalog : Catalog) (entry : WorkflowEntry) : Prop where
  run : locateWorkflow platform entry.identity = some entry.filePath ↔
    ¬(entry.scope = .global ∧ entry.identity ++ workflowSuffix ∈ platform.readdir platform.projectDir)
  named : ∀ validated workflow filePath, resolveWorkflow platform entry.identity validated = .ok workflow filePath →
    locateWorkflow platform entry.identity = some filePath ∧
      ∃ loaded, validated filePath = .ok loaded ∧ workflow = { loaded with name := entry.identity }
  broken : entry.scope = .global → entry.identity ++ workflowSuffix ∈ platform.readdir platform.projectDir →
    ∃ broken ∈ catalog.broken, locateWorkflow platform entry.identity = some broken.filePath

theorem mem_discovered : entry ∈ (discoverWorkflows platform load).entries ↔
    entry ∈ (scanWorkflowDir platform .project load).entries ∨
      entry ∈ (scanWorkflowDir platform .global load).entries ∧
        entry.identity ∉ (scanWorkflowDir platform .project load).entries.map WorkflowEntry.identity := by
  simp [discoverWorkflows]

/-- A project file of an identity is listed in its layer or broken. -/
theorem listed_or_broken (h : Consistent platform) (hp : Plain identity)
    (hm : identity ++ workflowSuffix ∈ platform.readdir platform.projectDir) (load : WorkflowLoader) :
    identity ∈ (scanWorkflowDir platform .project load).entries.map WorkflowEntry.identity ∨
      ∃ error, load (platform.join platform.projectDir (identity ++ workflowSuffix)) = .error error := by
  cases hl : load (platform.join platform.projectDir (identity ++ workflowSuffix)) with
  | ok workflow =>
    refine .inl (List.mem_map.mpr ⟨⟨identity, workflow.name, workflow.description,
      platform.join platform.projectDir (identity ++ workflowSuffix), .project⟩, ?_, rfl⟩)
    exact (mem_scan_entries h).mpr ⟨rfl, hp, hm, rfl, hl⟩
  | error error => exact .inr ⟨error, rfl⟩

theorem listed_run (h : Consistent platform) (load : WorkflowLoader) :
    ∀ entry ∈ (discoverWorkflows platform load).entries, typeScriptSuffix.isSuffixOf entry.identity = false →
      RunAsListed platform (discoverWorkflows platform load) entry := by
  intro entry hm hts
  obtain hproject | ⟨hglobal, hshadow⟩ := mem_discovered.mp hm
  · obtain ⟨hs, hp, hdir, hf, -⟩ := (mem_scan_entries h).mp hproject
    rw [workflowsDir_project] at hdir hf
    refine ⟨?_, fun _ _ _ hr => resolveWorkflow_identity h hp hts hr, ?_⟩
    · rw [locateWorkflow_identity h hp hts, if_pos hdir, hf, hs]
      simp
    · intro hg
      rw [hs] at hg
      cases hg
  · obtain ⟨hs, hp, hdir, hf, hl⟩ := (mem_scan_entries h).mp hglobal
    rw [workflowsDir_global] at hdir hf
    have hbroken : entry.identity ++ workflowSuffix ∈ platform.readdir platform.projectDir →
        ∃ error, load (platform.join platform.projectDir (entry.identity ++ workflowSuffix)) = .error error :=
      fun hin => (listed_or_broken h hp hin load).resolve_left hshadow
    refine ⟨?_, fun _ _ _ hr => resolveWorkflow_identity h hp hts hr, ?_⟩
    · rw [locateWorkflow_identity h hp hts]
      by_cases hin : entry.identity ++ workflowSuffix ∈ platform.readdir platform.projectDir
      · rw [if_pos hin]
        constructor
        · intro heq
          obtain ⟨error, he⟩ := hbroken hin
          rw [Option.some.inj heq, hl] at he
          cases he
        · exact fun hn => absurd ⟨hs, hin⟩ hn
      · rw [if_neg hin, if_pos hdir, hf]
        exact ⟨fun _ hn => hin hn.2, fun _ => rfl⟩
    · intro _ hin
      obtain ⟨error, he⟩ := hbroken hin
      refine ⟨⟨platform.join platform.projectDir (entry.identity ++ workflowSuffix), error⟩, ?_, ?_⟩
      · exact List.mem_append_left _ ((mem_scan_broken h).mpr ⟨entry.identity, hp, hin, rfl, he⟩)
      · rw [locateWorkflow_identity h hp hts, if_pos hin]

def isSeparator (c : Char) : Bool := decide (c ≠ '/')

def posix (projectDir globalDir : Text) (files : Text → List Text) : Platform where
  projectDir := projectDir
  globalDir := globalDir
  join dir name := dir ++ '/' :: name
  resolve arg := projectDir ++ '/' :: arg
  basename path := path.rtakeWhile isSeparator
  readdir := files
  existsSync path := decide (path.rtakeWhile isSeparator ∈ files (path.rdropWhile isSeparator).dropLast)
  localeOrder a b := decide (a ≤ b)

theorem split_join (dir : Text) (hp : Plain name) :
    (dir ++ '/' :: name).rtakeWhile isSeparator = name ∧ ((dir ++ '/' :: name).rdropWhile isSeparator).dropLast = dir := by
  have hall : ∀ c ∈ name.reverse, isSeparator c = true := by
    intro c hc
    exact decide_eq_true (fun he => hp (he ▸ List.mem_reverse.mp hc))
  have hrev : (dir ++ '/' :: name).reverse = name.reverse ++ '/' :: dir.reverse := by simp
  constructor
  · rw [List.rtakeWhile, hrev, List.takeWhile_append_of_pos hall]
    simp [isSeparator]
  · rw [List.rdropWhile, hrev, List.dropWhile_append_of_pos hall]
    simp [isSeparator]

theorem consistent_posix (projectDir globalDir : Text) {files : Text → List Text}
    (hp : ∀ dir, ∀ name ∈ files dir, Plain name) : Consistent (posix projectDir globalDir files) where
  plain := hp
  listed := by
    intro dir identity hplain
    obtain ⟨hbase, hdir⟩ := split_join dir (plain_append.mpr hplain)
    simp only [posix, hbase, hdir, decide_eq_true_eq]
  basename := fun dir identity hplain => (split_join dir (plain_append.mpr hplain)).1

def twoLayers (dir : Text) : List Text :=
  if dir = ['p'] then ["a.workflow.ts".toList] else if dir = ['g'] then ["a.workflow.ts".toList] else []

theorem consistent_twoLayers : Consistent (posix ['p'] ['g'] twoLayers) := by
  apply consistent_posix
  intro dir name hm
  unfold twoLayers at hm
  split_ifs at hm
  · rw [List.mem_singleton.mp hm]
    unfold Plain
    decide
  · rw [List.mem_singleton.mp hm]
    unfold Plain
    decide
  · cases hm

def brokenInProject (filePath : Text) : Except Text LoadedWorkflow :=
  if filePath.head? = some 'p' then .error "unexpected token".toList else .ok { name := "a".toList }

def sharedEntry : WorkflowEntry where
  identity := ['a']
  name := "a".toList
  description := none
  filePath := "g/a.workflow.ts".toList
  scope := .global

theorem mem_sharedEntry : sharedEntry ∈ (discoverWorkflows (posix ['p'] ['g'] twoLayers) brokenInProject).entries := by
  refine mem_discovered.mpr (.inr ⟨?_, ?_⟩)
  · exact (mem_scan_entries consistent_twoLayers).mpr ⟨rfl, by unfold Plain; decide, by decide, rfl, rfl⟩
  · intro hm
    obtain ⟨entry, hentry, -⟩ := List.mem_map.mp hm
    obtain ⟨-, -, -, hf, hl⟩ := (mem_scan_entries consistent_twoLayers).mp hentry
    rw [hf] at hl
    cases hl

/-- The global workflow that is listed is not the one that is run. -/
theorem listed_run_shared : RunAsListed (posix ['p'] ['g'] twoLayers)
    (discoverWorkflows (posix ['p'] ['g'] twoLayers) brokenInProject) sharedEntry :=
  listed_run consistent_twoLayers brokenInProject sharedEntry mem_sharedEntry (by decide)

/-- The identities offered are exactly those that name a file. -/
theorem offered_iff (h : Consistent platform) (hp : Plain identity) (hts : typeScriptSuffix.isSuffixOf identity = false) :
    identity ∈ listWorkflowIdentities platform ↔ (locateWorkflow platform identity).isSome = true := by
  have hmem : ∀ dir, (∃ filePath ∈ workflowFiles platform dir, workflowFileIdentity platform filePath = identity) ↔
      identity ++ workflowSuffix ∈ platform.readdir dir := by
    intro dir
    constructor
    · rintro ⟨filePath, hm, rfl⟩
      obtain ⟨other, hother, hdir, rfl⟩ := (mem_workflowFiles h).mp hm
      rw [identity_join h dir hother]
      exact hdir
    · intro hdir
      exact ⟨_, (mem_workflowFiles h).mpr ⟨identity, hp, hdir, rfl⟩, identity_join h dir hp⟩
  rw [listWorkflowIdentities, List.mem_mergeSort, List.mem_eraseDups, List.map_append, List.mem_append, List.mem_map,
    List.mem_map, hmem, hmem, locateWorkflow_identity h hp hts]
  split_ifs with hproject hglobal
  · simp [hproject]
  · simp [hglobal]
  · simp [hproject, hglobal]

theorem offered_iff_shared : ['a'] ∈ listWorkflowIdentities (posix ['p'] ['g'] twoLayers) ↔
    (locateWorkflow (posix ['p'] ['g'] twoLayers) ['a']).isSome = true :=
  offered_iff consistent_twoLayers (by unfold Plain; decide) (by decide)

end KimchiWorkflows.Host.WorkflowCatalog
