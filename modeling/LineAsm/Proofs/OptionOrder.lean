import Mathlib.Data.List.Nodup
import LineAsm.Proofs.CommandLines

/-!
# Options in any order

What the groups of a command line ask for does not depend on their
order, that of the positional arguments apart. For each option the
groups are looked through, and what they say about it is at most one
thing (`Options.Says`); so a permutation says the same, and the options
are found exactly if no option is repeated and there are at most two
positional arguments (`Options.Collects`).

The settings of a run have three layers: an option wins over the
settings file, and that over the defaults (`Options.Merges`). Misuse is
found wherever it stands, before any file is opened
(`Options.not_misused`), unless a notice was asked for first: that is
shown instead, and nothing behind it is read (`Options.run_noticed`).
-/

namespace LineAsm

open Argument

namespace Options

/-! ## What groups say about one option -/

section Says

variable {α : Type} {pick : Argument → Option α} {groups groups' : List Argument}
  {said? : Option α} {name : String}

/-- This is what the groups say about an option, and they say it only once. -/
def Says (pick : Argument → Option α) (groups : List Argument) (said? : Option α) : Prop :=
  groups.filterMap pick = said?.toList

theorem atMostOnce_eq_ok_iff :
    atMostOnce name pick groups = .ok said? ↔ Says pick groups said? := by
  rw [atMostOnce, Says]
  rcases groups.filterMap pick with _ | ⟨value, _ | ⟨other, rest⟩⟩ <;> cases said? <;> simp

theorem Says.perm (h : Says pick groups said?) (hperm : groups'.Perm groups) :
    Says pick groups' said? := by
  have hsame := hperm.filterMap pick
  rw [h] at hsame
  cases said? with
  | none => exact List.perm_nil.mp hsame
  | some value => exact List.perm_singleton.mp hsame

/-- The groups that are picked are those of one option. -/
structure Picks (pick : Argument → Option α) (name : String) (make : α → Argument) : Prop where
  isSome_eq : ∀ group, (pick group).isSome = (group.option? == some name)
  eq_some_iff : ∀ group value, pick group = some value ↔ group = make value

variable {make : α → Argument}

theorem Says.eq_some_iff (h : Says pick groups said?) (hpick : Picks pick name make) {value : α} :
    said? = some value ↔ make value ∈ groups := by
  rw [← Option.mem_toList, ← h, List.mem_filterMap]
  simp [hpick.eq_some_iff]

theorem Says.eq_none (h : Says pick groups said?) (hpick : Picks pick name make)
    (hnone : ∀ value, make value ∉ groups) : said? = none :=
  Option.eq_none_iff_forall_ne_some.mpr fun value hsome =>
    hnone value ((h.eq_some_iff hpick).mp hsome)

theorem Picks.length_eq (h : Picks pick name make) :
    (groups.filterMap pick).length = (groups.filterMap option?).count name := by
  rw [List.length_filterMap_eq_countP, List.count_filterMap]
  simp only [h.isSome_eq]

theorem Says.count_le_one (h : Says pick groups said?) (hpick : Picks pick name make) :
    (groups.filterMap option?).count name ≤ 1 := by
  rw [← hpick.length_eq, h]
  cases said? <;> simp

theorem Picks.says_head? (h : Picks pick name make)
    (hcount : (groups.filterMap option?).count name ≤ 1) :
    Says pick groups (groups.filterMap pick).head? := by
  rw [← h.length_eq] at hcount
  rw [Says]
  generalize groups.filterMap pick = said at hcount
  rcases said with _ | ⟨value, _ | ⟨other, rest⟩⟩
  · rfl
  · rfl
  · simp at hcount

end Says

/-! ## What groups say about all options -/

/-- A flag that may be set, as something that may be said. -/
def asked (flag : Bool) : Option Unit := if flag then some () else none

theorem asked_isSome (said? : Option Unit) : asked said?.isSome = said? := by
  cases said? <;> rfl

theorem isSome_asked (flag : Bool) : (asked flag).isSome = flag := by
  cases flag <;> rfl

theorem asked_eq_some_iff {flag : Bool} : asked flag = some () ↔ flag = true := by
  cases flag <;> simp [asked]

/-- The options are those that the groups ask for. -/
structure Collects (groups : List Argument) (options : Options) : Prop where
  format : Says Argument.format? groups options.format?
  revision : Says Argument.revision? groups options.revision?
  config : Says Argument.config? groups options.config?
  strict : Says (flag? .strict) groups (asked options.strict)
  keepGoing : Says (flag? .keepGoing) groups (asked options.keepGoing)
  printRevision : Says (flag? .printRevision) groups (asked options.printRevision)
  positionals : (groups.filterMap positional?).length ≤ 2
  input : options.input? = (groups.filterMap positional?)[0]?
  output : options.output? = (groups.filterMap positional?)[1]?

variable {groups groups' : List Argument} {options : Options}

theorem places_eq_ok_iff {input? output? : Option String} :
    places groups = .ok (input?, output?) ↔ (groups.filterMap positional?).length ≤ 2
      ∧ input? = (groups.filterMap positional?)[0]?
      ∧ output? = (groups.filterMap positional?)[1]? := by
  rw [places]
  rcases groups.filterMap positional? with _ | ⟨first, _ | ⟨second, _ | ⟨third, rest⟩⟩⟩
  · simp [eq_comm]
  · simp [eq_comm]
  · simp [eq_comm]
  · simp

theorem collects_of_ofGroups (h : ofGroups groups = .ok options) : Collects groups options := by
  obtain ⟨format?, hformat, h⟩ := exists_of_bind_ok h
  obtain ⟨revision?, hrevision, h⟩ := exists_of_bind_ok h
  obtain ⟨config?, hconfig, h⟩ := exists_of_bind_ok h
  obtain ⟨strict?, hstrict, h⟩ := exists_of_bind_ok h
  obtain ⟨keepGoing?, hkeepGoing, h⟩ := exists_of_bind_ok h
  obtain ⟨printRevision?, hprintRevision, h⟩ := exists_of_bind_ok h
  obtain ⟨⟨input?, output?⟩, hplaces, h⟩ := exists_of_bind_ok h
  cases h
  rw [atMostOnce_eq_ok_iff] at hformat hrevision hconfig hstrict hkeepGoing hprintRevision
  obtain ⟨hlength, hinput, houtput⟩ := places_eq_ok_iff.mp hplaces
  rw [← asked_isSome strict?] at hstrict
  rw [← asked_isSome keepGoing?] at hkeepGoing
  rw [← asked_isSome printRevision?] at hprintRevision
  exact ⟨hformat, hrevision, hconfig, hstrict, hkeepGoing, hprintRevision, hlength, hinput,
    houtput⟩

theorem Collects.ofGroups_eq (h : Collects groups options) : ofGroups groups = .ok options := by
  rw [ofGroups, atMostOnce_eq_ok_iff.mpr h.format, atMostOnce_eq_ok_iff.mpr h.revision,
    atMostOnce_eq_ok_iff.mpr h.config, atMostOnce_eq_ok_iff.mpr h.strict,
    atMostOnce_eq_ok_iff.mpr h.keepGoing, atMostOnce_eq_ok_iff.mpr h.printRevision,
    places_eq_ok_iff.mpr ⟨h.positionals, h.input, h.output⟩]
  simp only [bind, Except.bind, isSome_asked]
  rfl

/-- The options of a command line are what its groups ask for. -/
theorem parse_eq_run_iff {arguments : List String} : parse arguments = .ok (.run options)
    ↔ ∃ groups, CommandLine arguments groups none ∧ Collects groups options := by
  constructor
  · intro h
    obtain ⟨groups, hgroups, h⟩ := ofGroups_of_parse h
    exact ⟨groups, groups_eq_ok_iff.mp hgroups, collects_of_ofGroups h⟩
  · rintro ⟨groups, hline, h⟩
    rw [parse, groups_eq_ok_iff.mpr hline]
    simp only [bind, Except.bind, h.ofGroups_eq]
    rfl

/-- The options before a notice have to be in order as well. -/
theorem parse_eq_notice_iff {arguments : List String} {notice : Notice} :
    parse arguments = .ok (.notice notice) ↔ ∃ groups options,
      CommandLine arguments groups (some notice) ∧ Collects groups options := by
  constructor
  · intro h
    obtain ⟨⟨groups, notice?⟩, hgroups, h⟩ := exists_of_bind_ok h
    obtain ⟨options, hoptions, h⟩ := exists_of_bind_ok h
    cases notice? with
    | none => cases h
    | some notice' =>
        cases h
        exact ⟨groups, options, groups_eq_ok_iff.mp hgroups, collects_of_ofGroups hoptions⟩
  · rintro ⟨groups, options, hline, h⟩
    rw [parse, groups_eq_ok_iff.mpr hline]
    simp only [bind, Except.bind, h.ofGroups_eq]
    rfl

/-- Only the order of the positional arguments matters. -/
theorem Collects.perm (h : Collects groups options) (hperm : groups'.Perm groups)
    (hpositional : groups'.filterMap positional? = groups.filterMap positional?) :
    Collects groups' options where
  format := h.format.perm hperm
  revision := h.revision.perm hperm
  config := h.config.perm hperm
  strict := h.strict.perm hperm
  keepGoing := h.keepGoing.perm hperm
  printRevision := h.printRevision.perm hperm
  positionals := hpositional ▸ h.positionals
  input := hpositional ▸ h.input
  output := hpositional ▸ h.output

theorem picks_format : Picks Argument.format? "format" .format where
  isSome_eq group := by cases group <;> rfl
  eq_some_iff group _ := by cases group <;> simp [Argument.format?]

theorem picks_revision : Picks Argument.revision? "revision" .revision where
  isSome_eq group := by cases group <;> rfl
  eq_some_iff group _ := by cases group <;> simp [Argument.revision?]

theorem picks_config : Picks Argument.config? "config" .config where
  isSome_eq group := by cases group <;> rfl
  eq_some_iff group _ := by cases group <;> simp [Argument.config?]

theorem picks_flag {name : String} {flag : Argument} (h : (name, flag) ∈ flags) :
    Picks (flag? flag) name fun _ => flag where
  isSome_eq group := by
    simp only [flags, List.mem_cons, Prod.mk.injEq, List.not_mem_nil, or_false] at h
    rcases h with ⟨rfl, rfl⟩ | ⟨rfl, rfl⟩ | ⟨rfl, rfl⟩ <;> cases group <;> rfl
  eq_some_iff group _ := by simp [flag?]

theorem strict_mem_flags : ("strict", .strict) ∈ flags := .head _

theorem keepGoing_mem_flags : ("keep-going", .keepGoing) ∈ flags := .tail _ (.head _)

theorem printRevision_mem_flags : ("print-revision", .printRevision) ∈ flags :=
  .tail _ (.tail _ (.head _))

theorem exists_collects (honce : (groups.filterMap option?).Nodup)
    (htwo : (groups.filterMap positional?).length ≤ 2) : ∃ options, Collects groups options := by
  have hcount := List.nodup_iff_count_le_one.mp honce
  have hflag {flag : Argument} {name : String} (hmem : (name, flag) ∈ flags) :
      Says (flag? flag) groups (asked (groups.filterMap (flag? flag)).head?.isSome) := by
    rw [asked_isSome]
    exact (picks_flag hmem).says_head? (hcount name)
  exact ⟨⟨(groups.filterMap positional?)[0]?, (groups.filterMap positional?)[1]?, _, _, _, _, _, _⟩,
    picks_format.says_head? (hcount _), picks_revision.says_head? (hcount _),
    picks_config.says_head? (hcount _),
    hflag strict_mem_flags, hflag keepGoing_mem_flags, hflag printRevision_mem_flags, htwo, rfl,
    rfl⟩

theorem Collects.nodup (h : Collects groups options) : (groups.filterMap option?).Nodup := by
  rw [List.nodup_iff_count_le_one]
  intro name
  -- A name that is counted at all is that of one of the fields.
  by_cases hname : name ∈ groups.filterMap option?
  · obtain ⟨group, -, hgroup⟩ := List.mem_filterMap.mp hname
    cases group with
    | format _ =>
        cases hgroup
        exact h.format.count_le_one picks_format
    | revision _ =>
        cases hgroup
        exact h.revision.count_le_one picks_revision
    | config _ =>
        cases hgroup
        exact h.config.count_le_one picks_config
    | strict =>
        cases hgroup
        exact h.strict.count_le_one (picks_flag strict_mem_flags)
    | keepGoing =>
        cases hgroup
        exact h.keepGoing.count_le_one (picks_flag keepGoing_mem_flags)
    | printRevision =>
        cases hgroup
        exact h.printRevision.count_le_one (picks_flag printRevision_mem_flags)
    | positional _ => cases hgroup
  · rw [List.count_eq_zero_of_not_mem hname]
    exact Nat.zero_le 1

/-! ## Three layers of settings -/

/-- The settings under the options: those of the file that is named, or the
defaults without one. -/
inductive Underlies (groups : List Argument) (files : FileTree) : Settings → Prop where
  | file {path text : String} {settings : Settings} : .config path ∈ groups →
      files.readText path = .ok text → Settings.read? text = some settings →
      Underlies groups files settings
  | defaults : (∀ path, .config path ∉ groups) →
      Underlies groups files ⟨⟨.v2, .lenient⟩, .abort, .hex⟩

/-- Every setting is that of its option, or else that of the layer below. -/
structure Merges (groups : List Argument) (below merged : Settings) : Prop where
  revision : ∀ revision, .revision revision ∈ groups → merged.encoder.revision = revision
  belowRevision : (∀ revision, .revision revision ∉ groups) →
    merged.encoder.revision = below.encoder.revision
  mode : .strict ∈ groups → merged.encoder.mode = .strict
  belowMode : .strict ∉ groups → merged.encoder.mode = below.encoder.mode
  policy : .keepGoing ∈ groups → merged.policy = .continue
  belowPolicy : .keepGoing ∉ groups → merged.policy = below.policy
  format : ∀ format, .format format ∈ groups → merged.format = format
  belowFormat : (∀ format, .format format ∉ groups) → merged.format = below.format

theorem Says.flag_iff {name : String} {flag : Argument} {set : Bool}
    (h : Says (flag? flag) groups (asked set)) (hflag : (name, flag) ∈ flags) :
    set = true ↔ flag ∈ groups := by
  rw [← asked_eq_some_iff]
  exact h.eq_some_iff (picks_flag hflag)

theorem Collects.merges (h : Collects groups options) (below : Settings) :
    Merges groups below (options.override below) where
  revision revision hmem := by
    rw [override, (h.revision.eq_some_iff picks_revision).mpr hmem]
    rfl
  belowRevision hnone := by
    rw [override, h.revision.eq_none picks_revision hnone]
    rfl
  mode hmem := if_pos ((h.strict.flag_iff strict_mem_flags).mpr hmem)
  belowMode hnot := if_neg (mt (h.strict.flag_iff strict_mem_flags).mp hnot)
  policy hmem := if_pos ((h.keepGoing.flag_iff keepGoing_mem_flags).mpr hmem)
  belowPolicy hnot := if_neg (mt (h.keepGoing.flag_iff keepGoing_mem_flags).mp hnot)
  format format hmem := by
    rw [override, (h.format.eq_some_iff picks_format).mpr hmem]
    rfl
  belowFormat hnone := by
    rw [override, h.format.eq_none picks_format hnone]
    rfl

theorem Collects.settings?_eq (h : Collects groups options) {files : FileTree} {below : Settings}
    (hunder : Underlies groups files below) :
    options.settings? files = some (options.override below) := by
  cases hunder with
  | file hconfig htext hread =>
      rw [settings?, (h.config.eq_some_iff picks_config).mpr hconfig]
      simp only [htext, hread, Option.map_some]
  | defaults hnone =>
      rw [settings?, h.config.eq_none picks_config hnone]
      rfl

/-! ## Misuse -/

/-- The option does not take the value. -/
def Refuses (name value : String) : Prop :=
  name = "format" ∧ value ∉ ["hex", "bin", "vhdl"]
    ∨ name = "revision" ∧ ∀ revision, Revision.read value ≠ .ok revision

/-- Something that no arguments may hold, whatever the others are: an option
that is given twice or not known, a format or revision that does not exist, or
a third positional argument. Only a notice that is asked for earlier hides it. -/
inductive Misused : List String → Prop where
  | repeated {before between after : List String} {first second name : String} :
      "--" ∉ before ++ first :: between → Quiet (before ++ first :: between) →
      Names first name → Names second name →
      Misused (before ++ first :: between ++ second :: after)
  | unknown {before after : List String} {argument name : String} :
      "--" ∉ before → Quiet before → Names argument name →
      name ∉ ["format", "revision", "config", "strict", "keep-going", "print-revision", "help",
        "version"] →
      Misused (before ++ argument :: after)
  | refused {before after : List String} {argument name value : String} :
      "--" ∉ before → Quiet before → HasValue argument after name value → Refuses name value →
      Misused (before ++ argument :: after)
  | surplus {before between between' after : List String} {first second third : String} :
      Quiet (before ++ first :: between ++ second :: between') →
      Positional before first → Positional (before ++ first :: between) second →
      Positional (before ++ first :: between ++ second :: between') third →
      Misused (before ++ first :: between ++ second :: between' ++ third :: after)

theorem Refuses.mem_valued {name value : String} (h : Refuses name value) : name ∈ valued := by
  rcases h with ⟨rfl, -⟩ | ⟨rfl, -⟩ <;> decide

theorem Refuses.not_gives {name value : String} {group : Argument} (h : Refuses name value) :
    ¬ Gives name value group := by
  intro hgives
  cases hgives with
  | format hmem =>
      rcases h with ⟨-, hvalue⟩ | ⟨hname, -⟩
      · have hname : value ∈ [("hex", Format.hex), ("bin", .bin), ("vhdl", .vhdl)].map (·.1) :=
          List.mem_map.mpr ⟨_, hmem, rfl⟩
        exact hvalue hname
      · exact absurd hname (by decide)
  | revision hread =>
      rcases h with ⟨hname, -⟩ | ⟨-, hvalue⟩
      · exact absurd hname (by decide)
      · exact hvalue _ hread
  | config _ => rcases h with ⟨hname, -⟩ | ⟨hname, -⟩ <;> exact absurd hname (by decide)

theorem name_of_option? {group : Argument} {name : String} (h : group.option? = some name) :
    name ∈ ["format", "revision", "config", "strict", "keep-going", "print-revision"] := by
  cases group <;> cases h <;> simp

/-- Arguments that are accepted are not misused. -/
theorem not_misused {arguments : List String} {notice? : Option Notice}
    (hline : CommandLine arguments groups notice?) (hcollects : Collects groups options) :
    ¬ Misused arguments := by
  intro hmisused
  cases hmisused with
  | repeated hterminator hquiet hfirst hsecond =>
      -- Before the second option stands a command line by itself, with the first one in it.
      obtain ⟨groups₁, groups₂, hline₁, rfl, hsecond'⟩ :=
        hline.exists_option hterminator hquiet hsecond
      obtain ⟨groups₀, groups₁, -, rfl, hfirst'⟩ :=
        hline₁.exists_option (mt (List.mem_append_left _) hterminator) hquiet.left hfirst
      obtain ⟨group₁, hmem₁, hgroup₁⟩ := hfirst'.resolve_right (by simp)
      obtain ⟨group₂, hmem₂, hgroup₂⟩ := hsecond'.resolve_right (by
        rintro ⟨notice, -, hannounces⟩
        have hname := name_of_option? hgroup₁
        rcases hannounces.name_eq hsecond with rfl | rfl <;> simp at hname)
      have hnodup := hcollects.nodup
      rw [List.filterMap_append, List.nodup_append] at hnodup
      exact hnodup.2.2 _ (List.mem_filterMap.mpr
          ⟨group₁, List.mem_append_right _ hmem₁, hgroup₁⟩) _
        (List.mem_filterMap.mpr ⟨group₂, hmem₂, hgroup₂⟩) rfl
  | unknown hterminator hquiet hnames hunknown =>
      obtain ⟨groups₁, groups₂, -, rfl, hknown | ⟨notice, -, hannounces⟩⟩ :=
        hline.exists_option hterminator hquiet hnames
      · obtain ⟨group, -, hgroup⟩ := hknown
        exact hunknown (List.mem_append_left _ (name_of_option? hgroup))
      · rcases hannounces.name_eq hnames with rfl | rfl <;> simp at hunknown
  | refused hterminator hquiet hvalue hrefuses =>
      obtain ⟨group, hgives⟩ := hline.exists_gives hterminator hquiet hrefuses.mem_valued hvalue
      exact hrefuses.not_gives hgives
  | surplus hquiet hfirst hsecond hthird =>
      obtain ⟨groups₃, after₃, hline₃, rfl⟩ := hline.exists_positional hquiet hthird
      obtain ⟨groups₂, after₂, hline₂, rfl⟩ := hline₃.exists_positional hquiet.left hsecond
      obtain ⟨groups₁, after₁, -, rfl⟩ := hline₂.exists_positional hquiet.left.left hfirst
      have hlength := hcollects.positionals
      simp only [List.filterMap_append, List.filterMap_cons, positional?, List.length_append,
        List.length_cons] at hlength
      omega

/-- A notice is shown wherever it is asked for, if what stands before is in
order, and nothing is run. -/
theorem run_noticed {before after : List String} {argument : String} {notice : Notice}
    (hline : CommandLine before groups none) (hcollects : Collects groups options)
    (hterminator : "--" ∉ before) (hannounces : Announces argument notice) (world : World) :
    world.run (before ++ argument :: after) = (.noticed notice, world) := by
  have hparse : parse (before ++ argument :: after) = .ok (.notice notice) :=
    parse_eq_notice_iff.mpr
      ⟨groups, options, hline.append_noticed hterminator hannounces, hcollects⟩
  rw [World.run, Program.run, hparse]
  rfl

/-- **Options in any order.** Arguments without a repeated option and with at
most two positional arguments give the same options in every order that keeps
that of the positional arguments: the input, the output, whether to print the
tables, and settings in which an option wins over the file and the file over
the defaults. Misused arguments are refused, whatever the files are. -/
theorem parse_in_any_order :
    (∀ {arguments : List String} {groups : List Argument}, CommandLine arguments groups none →
      (groups.filterMap option?).Nodup → (groups.filterMap positional?).length ≤ 2 →
      ∃ options,
        (∀ arguments' groups', CommandLine arguments' groups' none → groups'.Perm groups →
          groups'.filterMap positional? = groups.filterMap positional? →
          parse arguments' = .ok (.run options))
        ∧ options.input? = (groups.filterMap positional?)[0]?
        ∧ options.output? = (groups.filterMap positional?)[1]?
        ∧ (options.printRevision = true ↔ .printRevision ∈ groups)
        ∧ ∀ (world : World) below, Underlies groups world.files below → ∃ merged,
          Program.exec (Program.loadSettings options) world = (.ok merged, world)
          ∧ Merges groups below merged)
    ∧ ∀ {arguments : List String}, Misused arguments → ∃ error, parse arguments = .error error
      ∧ ∀ world : World, world.run arguments = (.refused error, world) := by
  constructor
  · intro arguments groups hline honce htwo
    obtain ⟨options, h⟩ := exists_collects honce htwo
    refine ⟨options, fun arguments' groups' hline' hperm hpositional => ?_, h.input, h.output,
      h.printRevision.flag_iff printRevision_mem_flags, fun world below hunder => ?_⟩
    · exact parse_eq_run_iff.mpr ⟨groups', hline', h.perm hperm hpositional⟩
    · exact ⟨_, Program.exec_loadSettings_world world (h.settings?_eq hunder), h.merges below⟩
  · intro arguments hmisused
    cases hparse : parse arguments with
    | ok request =>
        cases request with
        | run options =>
            obtain ⟨groups, hline, hcollects⟩ := parse_eq_run_iff.mp hparse
            exact absurd hmisused (not_misused hline hcollects)
        | notice notice =>
            obtain ⟨groups, options, hline, hcollects⟩ := parse_eq_notice_iff.mp hparse
            exact absurd hmisused (not_misused hline hcollects)
    | error error =>
        refine ⟨error, rfl, fun world => ?_⟩
        rw [World.run, Program.run, hparse]
        rfl

/-- Five groups in two orders over a settings file, and an option that is given
twice among arguments that are wrong in other ways and ask for help too late. -/
theorem parse_in_any_order_five :
    CommandLine
      ["--format=bin", "in.asm", "--config", "/etc/s.json", "out.txt", "--revision", "Early"]
      [.format .bin, .positional "in.asm", .config "/etc/s.json", .positional "out.txt",
        .revision .v1] none
    ∧ (∃ options,
      parse ["--format=bin", "in.asm", "--config", "/etc/s.json", "out.txt", "--revision", "Early"]
        = .ok (.run options)
      ∧ parse ["in.asm", "--revision=Early", "--format", "bin", "--config=/etc/s.json", "out.txt"]
        = .ok (.run options)
      ∧ options.input? = some "in.asm" ∧ options.output? = some "out.txt"
      ∧ ∃ (world : World) (merged : Settings),
        world.files = {
          entries := [(["etc"], .directory), (["etc", "s.json"], .file 0), (["work"], .directory)]
          contents := [(0, .text "\x7b\"mode\":\"strict\"\x7d")]
          working := ["work"] }
        ∧ Program.exec (Program.loadSettings options) world = (.ok merged, world)
        ∧ merged.encoder.revision = .v1 ∧ merged.encoder.mode = .strict
        ∧ merged.policy = .abort ∧ merged.format = .bin)
    ∧ Misused ["-x", "--strict", "", "--strict=yes", "--config", "--help"]
    ∧ ∃ error, parse ["-x", "--strict", "", "--strict=yes", "--config", "--help"]
        = .error error := by
  have hinput : Alone "in.asm" (.positional "in.asm") := .positional (by decide) (.inl (by decide))
  have houtput : Alone "out.txt" (.positional "out.txt") :=
    .positional (by decide) (.inl (by decide))
  have hformat : Gives "format" "bin" (.format .bin) := .format (by decide)
  have hrevision : Gives "revision" "Early" (.revision .v1) := .revision rfl
  have hconfig : Gives "config" "/etc/s.json" (.config "/etc/s.json") := .config (by decide)
  have hline : CommandLine
      ["--format=bin", "in.asm", "--config", "/etc/s.json", "out.txt", "--revision", "Early"]
      [.format .bin, .positional "in.asm", .config "/etc/s.json", .positional "out.txt",
        .revision .v1] none :=
    .alone (.attached hformat) (.alone hinput (.separate hconfig (.inl (by decide))
      (.alone houtput (.separate hrevision (.inl (by decide)) .nil))))
  have hother : CommandLine
      ["in.asm", "--revision=Early", "--format", "bin", "--config=/etc/s.json", "out.txt"]
      [.positional "in.asm", .revision .v1, .format .bin, .config "/etc/s.json",
        .positional "out.txt"] none :=
    .alone hinput (.alone (.attached hrevision) (.separate hformat (.inl (by decide))
      (.alone (.attached hconfig) (.alone houtput .nil))))
  have hquiet : Quiet (["-x"] ++ "--strict" :: [""]) := by
    intro argument hmem notice hannounces
    have hform := form_announces hannounces
    simp only [List.singleton_append, List.takeWhile_cons] at hmem
    rcases hmem with _ | ⟨_, _ | ⟨_, _ | ⟨_, ⟨⟩⟩⟩⟩ <;> cases hform
  have hfirst : Names "--strict" "strict" := ⟨by decide, by decide, none, rfl⟩
  have hsecond : Names "--strict=yes" "strict" := ⟨by decide, by decide, some "yes", rfl⟩
  have hmisused :
      Misused (["-x"] ++ "--strict" :: [""] ++ "--strict=yes" :: ["--config", "--help"]) :=
    .repeated (by decide) hquiet hfirst hsecond
  obtain ⟨hgives, hrefused⟩ := parse_in_any_order
  obtain ⟨options, hsame, hin, hout, -, hsettings⟩ := hgives hline (by decide) (by decide)
  obtain ⟨merged, hload, hmerges⟩ := hsettings
    { files := {
        entries := [(["etc"], .directory), (["etc", "s.json"], .file 0), (["work"], .directory)]
        contents := [(0, .text "\x7b\"mode\":\"strict\"\x7d")]
        working := ["work"] } }
    ⟨⟨.v2, .strict⟩, .abort, .hex⟩ (.file (.tail _ (.tail _ (.head _))) rfl (by decide +kernel))
  obtain ⟨error, herror, -⟩ := hrefused hmisused
  refine ⟨hline, ⟨options, hsame _ _ hline (.refl _) rfl, hsame _ _ hother (by decide) rfl, hin,
    hout, _, merged, rfl, hload, hmerges.revision _ (by decide), hmerges.belowMode (by decide),
    hmerges.belowPolicy (by decide), hmerges.format _ (by decide)⟩, hmisused, error, herror⟩

end Options

end LineAsm
