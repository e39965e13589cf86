import LineAsm.Command.Settings
import LineAsm.Proofs.JsonReading

/-!
# Settings objects

A settings object is read key by key. Each of the four settings looks at
the members with its own key and at nothing else, so neither the order
of the members nor any member with another key makes a difference.

What the settings are is written down here once more, as tables of
names (`Setting`), and a text is given by the grammar (`Settings.Source`).
`Setting.Given.ofMembers?_eq` is what one setting makes of the names that
its key is given; the rest puts the four together.
-/

namespace LineAsm

/-! ## Settings by name -/

/-- A key of a settings object: the names of its choices, and the choice that
is made without a name. -/
structure Setting (α : Type) where
  key : String
  names : List (String × α)
  fallback : α

namespace Setting

def revision : Setting Revision := ⟨"revision", [("v1", .v1), ("v2", .v2), ("v3", .v3)], .v2⟩

def mode : Setting Mode := ⟨"mode", [("lenient", .lenient), ("strict", .strict)], .lenient⟩

def policy : Setting Policy := ⟨"on_error", [("abort", .abort), ("continue", .continue)], .abort⟩

def format : Setting Format := ⟨"format", [("hex", .hex), ("bin", .bin), ("vhdl", .vhdl)], .hex⟩

variable {α : Type}

/-- The key stands at most once, and with one of its names. -/
def Accepts (setting : Setting α) (members : List (String × Json)) : Prop :=
  (members.map (·.1)).count setting.key ≤ 1 ∧ ∀ value, (setting.key, value) ∈ members →
    ∃ name ∈ setting.names.map (·.1), value = .ofString name

/-- The choice is the one that the key names, or the fallback without the
key. -/
def Chooses (setting : Setting α) (members : List (String × Json)) (choice : α) : Prop :=
  (∀ value, (setting.key, value) ∈ members →
      ∃ name, value = .ofString name ∧ (name, choice) ∈ setting.names)
    ∧ (setting.key ∉ members.map (·.1) → choice = setting.fallback)

/-- The names that the members give to the key. -/
def Given (setting : Setting α) (members : List (String × Json)) (names : List String) : Prop :=
  members.filter (fun member => member.1 = setting.key)
    = names.map fun name => (setting.key, .ofString name)

/-- The choice for the names that a key is given. -/
def choose? (setting : Setting α) : List String → Option α
  | [] => some setting.fallback
  | [name] => setting.names.lookup name
  | _ => none

/-- The table is that of the choices of the reader. -/
structure Agrees [Inhabited α] (setting : Setting α) (choices : Choices α) : Prop where
  names_eq : setting.names = choices.all.map fun choice => (choices.name choice, choice)
  fallback_eq : setting.fallback = default

theorem revision_agrees : revision.Agrees Choices.revision := ⟨rfl, rfl⟩

theorem mode_agrees : mode.Agrees Choices.mode := ⟨rfl, rfl⟩

theorem policy_agrees : policy.Agrees Choices.policy := ⟨rfl, rfl⟩

theorem format_agrees : format.Agrees Choices.format := ⟨rfl, rfl⟩

theorem Agrees.ofName?_eq [Inhabited α] {setting : Setting α} {choices : Choices α}
    (h : setting.Agrees choices) (name : String) :
    choices.ofName? name = setting.names.lookup name := by
  rw [h.names_eq, Choices.ofName?]
  induction choices.all with
  | nil => rfl
  | cons choice rest ih =>
      rw [List.map_cons, List.find?_cons, List.lookup_cons]
      by_cases hname : choices.name choice = name
      · simp [hname]
      · have hother : (name == choices.name choice) = false := by
          rw [beq_eq_false_iff_ne]
          exact Ne.symm hname
        simp [hname, hother, ih]

variable {setting : Setting α} {members : List (String × Json)} {names : List String}

/-- If the key has only strings for values, it is given their texts. -/
theorem exists_given (h : ∀ member ∈ members, member.1 = setting.key →
    ∃ name, member.2 = .ofString name) : ∃ names, setting.Given members names := by
  induction members with
  | nil => exact ⟨[], rfl⟩
  | cons member members ih =>
      obtain ⟨hfirst, hrest⟩ := List.forall_mem_cons.mp h
      obtain ⟨names, hnames⟩ := ih hrest
      by_cases hkey : member.1 = setting.key
      · obtain ⟨name, hname⟩ := hfirst hkey
        refine ⟨name :: names, ?_⟩
        rw [Given, List.filter_cons_of_pos (by simpa using hkey), hnames, List.map_cons, ← hkey,
          ← hname]
      · refine ⟨names, ?_⟩
        rw [Given, List.filter_cons_of_neg (by simpa using hkey), hnames]

namespace Given

theorem mem_iff (h : setting.Given members names) {value : Json} :
    (setting.key, value) ∈ members ↔ ∃ name ∈ names, value = .ofString name := by
  have hfilter : (setting.key, value) ∈ members ↔
      (setting.key, value) ∈ members.filter fun member => member.1 = setting.key := by
    simp
  rw [hfilter, h, List.mem_map]
  simp [eq_comm]

theorem count_eq (h : setting.Given members names) :
    (members.map (·.1)).count setting.key = names.length := by
  have hlength := congrArg List.length h
  rw [List.length_map] at hlength
  rw [← hlength, List.count, List.countP_map, List.countP_eq_length_filter]
  rfl

/-- A setting sees the names that its key is given, and nothing else. -/
theorem ofMembers?_eq [Inhabited α] (h : setting.Given members names) {choices : Choices α}
    (hagrees : setting.Agrees choices) (nameOf : Json → Option String)
    (hname : ∀ name, nameOf (.ofString name) = some name) :
    choices.ofMembers? nameOf setting.key (Json.keyed members) = setting.choose? names := by
  have hfilter : (Json.keyed members).filter (fun member => member.1 = some setting.key)
      = names.map fun name => (some setting.key, .ofString name) := by
    rw [Json.keyed, List.filter_map]
    simp only [Function.comp_def, Option.some.injEq]
    rw [h, List.map_map]
    rfl
  rw [Choices.ofMembers?, hfilter]
  rcases names with _ | ⟨name, _ | ⟨other, rest⟩⟩
  · exact congrArg some hagrees.fallback_eq.symm
  · simp [hname, hagrees.ofName?_eq, choose?]
  · rfl

theorem accepts_iff_choose? (h : setting.Given members names) :
    setting.Accepts members ↔ ∃ choice, setting.choose? names = some choice := by
  rw [Accepts, h.count_eq, ← Option.isSome_iff_exists]
  simp only [h.mem_iff]
  match names with
  | [] => simp [choose?]
  | [name] =>
      rw [choose?, List.lookup_isSome_iff]
      simp [Json.ofString]
  | _ :: _ :: _ => simp [choose?]

theorem chooses (h : setting.Given members names) {choice : α}
    (hchoice : setting.choose? names = some choice) : setting.Chooses members choice := by
  match names with
  | [] =>
      refine ⟨fun value hvalue => ?_, fun _ => (Option.some.inj hchoice).symm⟩
      obtain ⟨name, hname, -⟩ := h.mem_iff.mp hvalue
      cases hname
  | [name] =>
      refine ⟨fun value hvalue => ?_, fun hkey => ?_⟩
      · obtain ⟨name', hname, rfl⟩ := h.mem_iff.mp hvalue
        obtain rfl := List.mem_singleton.mp hname
        obtain ⟨first, rest, hnames, -⟩ := List.lookup_eq_some_iff.mp hchoice
        exact ⟨name', rfl, by simp [hnames]⟩
      · have hmem := h.mem_iff.mpr ⟨name, List.mem_singleton.mpr rfl, rfl⟩
        exact absurd (List.mem_map.mpr ⟨_, hmem, rfl⟩) hkey
  | _ :: _ :: _ => cases hchoice

end Given

end Setting

/-! ## Order and other members -/

/-- A setting depends on the members with its key only up to their order. -/
theorem Choices.ofMembers?_perm {α : Type} [Inhabited α] {choices : Choices α}
    {nameOf : Json → Option String} {key : String} {members members' : List (Option String × Json)}
    (h : (members.filter fun member => member.1 = some key).Perm
      (members'.filter fun member => member.1 = some key)) :
    choices.ofMembers? nameOf key members = choices.ofMembers? nameOf key members' := by
  rw [ofMembers?, ofMembers?]
  generalize (members.filter fun member => decide (member.1 = some key)) = given at h
  generalize (members'.filter fun member => decide (member.1 = some key)) = given' at h
  match given, given' with
  | [], _ =>
      obtain rfl := h.nil_eq
      rfl
  | [_], _ =>
      obtain rfl := List.perm_singleton.mp h.symm
      rfl
  | _ :: _ :: _, _ :: _ :: _ => rfl
  | _ :: _ :: _, [] => cases h.length_eq
  | _ :: _ :: _, [_] => cases h.length_eq

namespace Settings

/-- The keys of a settings object. -/
def keys : List String := ["revision", "mode", "on_error", "format"]

/-- The text is an object with the members. The four keys have strings for
values, and less than 128 arrays and objects stand within one another,
the outermost object included. -/
structure Source (members : List (String × Json)) (text : String) : Prop where
  spelled : (Json.Phrase.padded (.ofMembers members)).Spelled text.toList
  strings : ∀ member ∈ members, member.1 ∈ keys → ∃ name, member.2 = .ofString name
  shallow : ∀ member ∈ members, member.2.depth + 1 < 128

/-- Each of the four keys stands at most once, and with one of its names. -/
structure Accepts (members : List (String × Json)) : Prop where
  revision : Setting.revision.Accepts members
  mode : Setting.mode.Accepts members
  policy : Setting.policy.Accepts members
  format : Setting.format.Accepts members

/-- The settings are those that the members name, or else the fallbacks. -/
structure Chooses (members : List (String × Json)) (settings : Settings) : Prop where
  revision : Setting.revision.Chooses members settings.encoder.revision
  mode : Setting.mode.Chooses members settings.encoder.mode
  policy : Setting.policy.Chooses members settings.policy
  format : Setting.format.Chooses members settings.format

variable {members : List (String × Json)} {text : String}

theorem depthOfMembers_le (limit : Nat) :
    ∀ {members : List (String × Json)}, (∀ member ∈ members, member.2.depth ≤ limit) →
      Json.depthOfMembers (Json.keyed members) ≤ limit
  | [], _ => Nat.zero_le _
  | _ :: _, h => by
      obtain ⟨hfirst, hrest⟩ := List.forall_mem_cons.mp h
      exact Nat.max_le.mpr ⟨hfirst, depthOfMembers_le limit hrest⟩

/-- Nothing but the members of the object decides. -/
theorem Source.read?_eq (h : Source members text) :
    read? text = ofMembers? (Json.keyed members) := by
  have hstorable : (Json.ofMembers members).isStorable = true :=
    Json.Phrase.isStorable_of_spelled h.spelled
  have hdepth : (Json.ofMembers members).depth ≤ maxDepth := by
    refine Nat.succ_le_succ (depthOfMembers_le 126 fun member hmember => ?_)
    have := h.shallow member hmember
    omega
  rw [read?, Json.parse?_of_spelled h.spelled]
  refine if_pos ?_
  rw [Bool.and_eq_true, decide_eq_true_iff]
  exact ⟨hstorable, hdepth⟩

theorem Source.exists_given (h : Source members text) {α : Type} (setting : Setting α)
    (hkey : setting.key ∈ keys) : ∃ names, setting.Given members names :=
  Setting.exists_given fun member hmember heq => h.strings member hmember (heq ▸ hkey)

/-- The four settings are chosen apart from one another. -/
theorem ofMembers?_eq_some_iff {revisions modes policies formats : List String}
    (hrevision : Setting.revision.Given members revisions)
    (hmode : Setting.mode.Given members modes)
    (hpolicy : Setting.policy.Given members policies)
    (hformat : Setting.format.Given members formats) (settings : Settings) :
    ofMembers? (Json.keyed members) = some settings ↔
      Setting.revision.choose? revisions = some settings.encoder.revision
        ∧ Setting.mode.choose? modes = some settings.encoder.mode
        ∧ Setting.policy.choose? policies = some settings.policy
        ∧ Setting.format.choose? formats = some settings.format := by
  rw [← hrevision.ofMembers?_eq Setting.revision_agrees Json.storedChoiceName? fun _ => rfl,
    ← hmode.ofMembers?_eq Setting.mode_agrees Json.storedChoiceName? fun _ => rfl,
    ← hpolicy.ofMembers?_eq Setting.policy_agrees Json.choiceName? fun _ => rfl,
    ← hformat.ofMembers?_eq Setting.format_agrees Json.choiceName? fun _ => rfl]
  unfold ofMembers?
  simp only [Option.bind_eq_bind, Option.bind_eq_some_iff]
  constructor
  · rintro ⟨_, hr, _, hm, _, hp, _, hf, hsettings⟩
    obtain rfl := Option.some.inj hsettings
    exact ⟨hr, hm, hp, hf⟩
  · rintro ⟨hr, hm, hp, hf⟩
    exact ⟨_, hr, _, hm, _, hp, _, hf, rfl⟩

theorem filter_keyed {key : String} (hkey : key ∈ keys) (members : List (String × Json)) :
    (Json.keyed members).filter (fun member => member.1 = some key)
      = Json.keyed ((members.filter fun member => member.1 ∈ keys).filter
          fun member => member.1 = key) := by
  rw [Json.keyed, List.filter_map, List.filter_filter, Json.keyed]
  refine congrArg _ (List.filter_congr fun member _ => ?_)
  by_cases heq : member.1 = key
  · simp [heq, hkey]
  · simp [heq]

theorem ofMembers?_perm {members members' : List (String × Json)}
    (h : (members.filter fun member => member.1 ∈ keys).Perm
      (members'.filter fun member => member.1 ∈ keys)) :
    ofMembers? (Json.keyed members) = ofMembers? (Json.keyed members') := by
  have hperm : ∀ key ∈ keys,
      ((Json.keyed members).filter fun member => member.1 = some key).Perm
        ((Json.keyed members').filter fun member => member.1 = some key) := by
    intro key hkey
    rw [filter_keyed hkey, filter_keyed hkey]
    exact (h.filter _).map _
  rw [ofMembers?, ofMembers?, Choices.ofMembers?_perm (hperm "revision" (by decide)),
    Choices.ofMembers?_perm (hperm "mode" (by decide)),
    Choices.ofMembers?_perm (hperm "on_error" (by decide)),
    Choices.ofMembers?_perm (hperm "format" (by decide))]

/-- **Settings are read key by key.** An object is accepted exactly if each of
the four keys stands at most once, with one of its names, and then each
setting is the one that is named, or the fallback. The order of the members
does not matter, and neither do members with other keys. -/
theorem read?_key_by_key (h : Source members text) :
    ((read? text).isSome ↔ Accepts members)
      ∧ (∀ settings, read? text = some settings → Chooses members settings)
      ∧ ∀ members' text', Source members' text' →
        (members.filter fun member => member.1 ∈ keys).Perm
          (members'.filter fun member => member.1 ∈ keys) →
        read? text' = read? text := by
  obtain ⟨revisions, hrevision⟩ := h.exists_given Setting.revision (by decide)
  obtain ⟨modes, hmode⟩ := h.exists_given Setting.mode (by decide)
  obtain ⟨policies, hpolicy⟩ := h.exists_given Setting.policy (by decide)
  obtain ⟨formats, hformat⟩ := h.exists_given Setting.format (by decide)
  have hread := ofMembers?_eq_some_iff hrevision hmode hpolicy hformat
  rw [← h.read?_eq] at hread
  refine ⟨⟨fun hsome => ?_, fun haccepts => ?_⟩, fun settings hsettings => ?_,
    fun members' text' h' hperm => ?_⟩
  · obtain ⟨settings, hsettings⟩ := Option.isSome_iff_exists.mp hsome
    obtain ⟨hr, hm, hp, hf⟩ := (hread settings).mp hsettings
    exact ⟨hrevision.accepts_iff_choose?.mpr ⟨_, hr⟩, hmode.accepts_iff_choose?.mpr ⟨_, hm⟩,
      hpolicy.accepts_iff_choose?.mpr ⟨_, hp⟩, hformat.accepts_iff_choose?.mpr ⟨_, hf⟩⟩
  · obtain ⟨revision, hr⟩ := hrevision.accepts_iff_choose?.mp haccepts.revision
    obtain ⟨mode, hm⟩ := hmode.accepts_iff_choose?.mp haccepts.mode
    obtain ⟨policy, hp⟩ := hpolicy.accepts_iff_choose?.mp haccepts.policy
    obtain ⟨format, hf⟩ := hformat.accepts_iff_choose?.mp haccepts.format
    exact Option.isSome_iff_exists.mpr
      ⟨⟨⟨revision, mode⟩, policy, format⟩, (hread _).mpr ⟨hr, hm, hp, hf⟩⟩
  · obtain ⟨hr, hm, hp, hf⟩ := (hread settings).mp hsettings
    exact ⟨hrevision.chooses hr, hmode.chooses hm, hpolicy.chooses hp, hformat.chooses hf⟩
  · rw [h.read?_eq, h'.read?_eq, ofMembers?_perm hperm]

/-- An object with an array, an escape and blanks, and one with an integer
and the members in another order. -/
theorem read?_key_by_key_reordered :
    Source [("x", .array [.null]), ("mode", .ofString "strict")]
        " \x7b\"x\":[null], \"mode\":\"\\u0073trict\" \x7d"
      ∧ Source [("mode", .ofString "strict"), ("y", .ofInteger true 7)]
        "\x7b\"mode\":\"strict\",\"y\":-7\x7d"
      ∧ (read? " \x7b\"x\":[null], \"mode\":\"\\u0073trict\" \x7d").isSome
      ∧ read? "\x7b\"mode\":\"strict\",\"y\":-7\x7d"
        = read? " \x7b\"x\":[null], \"mode\":\"\\u0073trict\" \x7d" := by
  have hescape : Json.Code ['0', '0', '7', '3'] 's'.toNat :=
    ⟨rfl, [0, 0, 7, 3], by decide, .cons ⟨by decide, .inl rfl⟩ (.cons ⟨by decide, .inl rfl⟩
      (.cons ⟨by decide, .inl rfl⟩ (.cons ⟨by decide, .inl rfl⟩ .nil))), by decide⟩
  have hrest : Json.Quotes ['t', 'r', 'i', 'c', 't'] ['t', 'r', 'i', 'c', 't'] :=
    Json.quotes_plain rfl
  have hstrict : Json.Quoted "strict" "\"\\u0073trict\"".toList := ⟨_, .code hescape hrest, rfl⟩
  have hfirst : Source [("x", .array [.null]), ("mode", .ofString "strict")]
      " \x7b\"x\":[null], \"mode\":\"\\u0073trict\" \x7d" := by
    refine ⟨?_, by simp [keys], by simp [Json.depth, Json.depthOfItems, Json.ofString]⟩
    exact .padded Json.blank_space (.object (.moreMembers
      (.member Json.blank_nil (Json.quoted_plain "x" rfl) Json.blank_nil (.padded Json.blank_nil
        (.array (.lastItem (.padded Json.blank_nil .null Json.blank_nil))) Json.blank_nil))
      (.lastMember (.member Json.blank_space (Json.quoted_plain "mode" rfl) Json.blank_nil
        (.padded Json.blank_nil (.string hstrict) Json.blank_space))))) Json.blank_nil
  have hsecond : Source [("mode", .ofString "strict"), ("y", .ofInteger true 7)]
      "\x7b\"mode\":\"strict\",\"y\":-7\x7d" := by
    refine ⟨?_, by simp [keys], by simp [Json.depth, Json.ofInteger, Json.ofString]⟩
    exact .padded Json.blank_nil (.object (.moreMembers
      (.member Json.blank_nil (Json.quoted_plain "mode" rfl) Json.blank_nil (.padded Json.blank_nil
        (.string (Json.quoted_plain "strict" rfl)) Json.blank_nil))
      (.lastMember (.member Json.blank_nil (Json.quoted_plain "y" rfl) Json.blank_nil
        (.padded Json.blank_nil (.negative (by decide)) Json.blank_nil))))) Json.blank_nil
  obtain ⟨haccepts, -, hsame⟩ := read?_key_by_key hfirst
  refine ⟨hfirst, hsecond, haccepts.mpr ?_, hsame _ _ hsecond (.refl _)⟩
  constructor <;> refine ⟨by decide, ?_⟩ <;> simp [Setting.revision, Setting.mode,
    Setting.policy, Setting.format]

end Settings

end LineAsm
