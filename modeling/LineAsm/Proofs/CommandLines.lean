import LineAsm.Proofs.Outcomes

/-!
# The grammar of command lines

What a list of arguments says is given here once more, as a grammar: a
group is one argument (`Argument.Alone`) or an option followed by its
value, and a command line is a sequence of groups, after which two
hyphens may make everything positional, or a notice end the line
(`Argument.CommandLine`). The reader accepts exactly these lists, and
finds exactly these groups (`groups_eq_ok_iff`).

Because a value that is an argument of its own never looks like an
option, an argument that does always begins a group, whatever stands
before it, as long as no notice has ended the line (`CommandLine.cut`).
So one bad option can be pointed out in a list of which little else is
known.
-/

namespace LineAsm

namespace Argument

/-! ## The texts of options -/

/-- A long option, with its value if that stands behind an equals sign. -/
def long (name : String) : Option String → String
  | none => "--" ++ name
  | some value => "--" ++ name ++ "=" ++ value

/-- The argument is an option of this name, known or not. -/
def Names (argument name : String) : Prop :=
  argument ≠ "--" ∧ '=' ∉ name.toList ∧ ∃ value?, argument = long name value?

/-- The text does not start with a hyphen, unless it is nothing else. -/
def Bare (text : String) : Prop := text.toList.head? ≠ some '-' ∨ text = "-"

theorem isHyphened_eq_false_iff {text : String} : isHyphened text = false ↔ Bare text := by
  have hlone : text = "-" ↔ text.toList = ['-'] := String.toList_inj.symm
  rw [isHyphened, Bare, hlone]
  split
  · rename_i htext
    simp [htext]
  · rename_i hother
    rcases htext : text.toList with _ | ⟨c, _ | ⟨d, cs⟩⟩
    · simp
    · simp [Decidable.em, or_comm]
    · have hc : c ≠ '-' := fun hc => hother d cs (by rw [htext, hc])
      simp [hc]

/-- What follows the hyphens of a long option. -/
def body (name : String) (value? : Option String) : List Char :=
  name.toList ++ match value? with
    | none => []
    | some value => '=' :: value.toList

theorem toList_long (name : String) (value? : Option String) :
    (long name value?).toList = '-' :: '-' :: body name value? := by
  cases value? <;> simp [long, body, String.toList_append]

theorem long_ne {name : String} (h : name ≠ "") (value? : Option String) :
    long name value? ≠ "--" := by
  intro heq
  have hbody := congrArg String.toList heq
  rw [toList_long, show "--".toList = ['-', '-'] from rfl] at hbody
  cases value? <;> simp [body, h] at hbody

theorem not_bare_long (name : String) (value? : Option String) : ¬ Bare (long name value?) := by
  rintro (hhead | hlone)
  · exact hhead (by rw [toList_long]; rfl)
  · have htext := congrArg String.toList hlone
    rw [toList_long, show "-".toList = ['-'] from rfl] at htext
    simp at htext

theorem splitOption_body {name : String} (h : '=' ∉ name.toList) (value? : Option String) :
    splitOption (body name value?) = (name, value?) := by
  have hname : ∀ c ∈ name.toList, decide (c ≠ '=') = true := by
    intro c hc
    exact decide_eq_true fun heq => h (heq ▸ hc)
  unfold splitOption body
  rw [List.takeWhile_append_of_pos hname, List.dropWhile_append_of_pos hname]
  cases value? <;> simp

/-- An option has one name and at most one value. -/
theorem long_inj {name name' : String} {value? value?' : Option String}
    (h : '=' ∉ name.toList) (h' : '=' ∉ name'.toList)
    (heq : long name value? = long name' value?') : name = name' ∧ value? = value?' := by
  have hbody : body name value? = body name' value?' := by
    have htext := congrArg String.toList heq
    rw [toList_long, toList_long] at htext
    exact (List.cons.inj (List.cons.inj htext).2).2
  have hsplit := congrArg splitOption hbody
  rw [splitOption_body h, splitOption_body h'] at hsplit
  exact Prod.mk.inj hsplit

/-- The first equals sign ends the name. -/
theorem exists_body (option : List Char) :
    ∃ (name : String) (value? : Option String), '=' ∉ name.toList ∧ option = body name value? := by
  induction option with
  | nil => exact ⟨"", none, by simp, rfl⟩
  | cons c rest ih =>
      by_cases hc : c = '='
      · exact ⟨"", some (String.ofList rest), by simp, by simp [body, hc]⟩
      · obtain ⟨name, value?, hname, rfl⟩ := ih
        refine ⟨String.ofList (c :: name.toList), value?, ?_, ?_⟩
        · simp [hname, Ne.symm hc]
        · simp [body]

/-- An argument is the terminator, a long option, has letters behind one hyphen,
or is none of these. -/
theorem shape_cases (argument : String) : argument = "--" ∨ (∃ name, Names argument name)
    ∨ (∃ letter rest, argument.toList = '-' :: letter :: rest ∧ letter ≠ '-')
    ∨ Bare argument := by
  by_cases hbare : Bare argument
  · exact .inr (.inr (.inr hbare))
  rw [← isHyphened_eq_false_iff, Bool.not_eq_false, isHyphened] at hbare
  split at hbare
  next letter rest htext =>
    by_cases hletter : letter = '-'
    · by_cases hdash : argument = "--"
      · exact .inl hdash
      · obtain ⟨name, value?, hname, rfl⟩ := exists_body rest
        refine .inr (.inl ⟨name, hdash, hname, value?, String.toList_inj.mp ?_⟩)
        rw [htext, hletter, toList_long]
    · exact .inr (.inr (.inl ⟨letter, rest, htext, hletter⟩))
  next => cases hbare

/-! ## Groups -/

/-- The value makes this group of the option with this name. -/
inductive Gives : String → String → Argument → Prop where
  | format {value : String} {format : Format} :
      (value, format) ∈ [("hex", .hex), ("bin", .bin), ("vhdl", .vhdl)] →
      Gives "format" value (.format format)
  | revision {value : String} {revision : Revision} : Revision.read value = .ok revision →
      Gives "revision" value (.revision revision)
  | config {path : String} : path ≠ "" → Gives "config" path (.config path)

/-- The argument is the whole group. -/
inductive Alone : String → Argument → Prop where
  | strict : Alone "--strict" .strict
  | keepGoing : Alone "--keep-going" .keepGoing
  | printRevision : Alone "--print-revision" .printRevision
  | attached {name value : String} {group : Argument} : Gives name value group →
      Alone (long name (some value)) group
  | positional {path : String} : path ≠ "" → Bare path → Alone path (.positional path)

/-- The argument asks for a notice, by its name or by a letter behind one
hyphen, whatever follows the letter. -/
inductive Announces : String → Notice → Prop where
  | help : Announces "--help" .help
  | version : Announces "--version" .version
  | letter {argument : String} {letter : Char} {rest : List Char} {notice : Notice} :
      argument.toList = '-' :: letter :: rest →
      (letter, notice) ∈ [('h', .help), ('V', .version)] → Announces argument notice

/-- The arguments are made of these groups, up to the notice that they ask for
if they do. -/
inductive CommandLine : List String → List Argument → Option Notice → Prop where
  | nil : CommandLine [] [] none
  | alone {argument : String} {rest : List String} {group : Argument} {groups : List Argument}
      {notice? : Option Notice} : Alone argument group → CommandLine rest groups notice? →
      CommandLine (argument :: rest) (group :: groups) notice?
  | separate {name value : String} {rest : List String} {group : Argument}
      {groups : List Argument} {notice? : Option Notice} : Gives name value group → Bare value →
      CommandLine rest groups notice? →
      CommandLine (long name none :: value :: rest) (group :: groups) notice?
  | terminated {paths : List String} : (∀ path ∈ paths, path ≠ "") →
      CommandLine ("--" :: paths) (paths.map .positional) none
  | noticed {argument : String} {rest : List String} {notice : Notice} :
      Announces argument notice → CommandLine (argument :: rest) [] (some notice)

theorem Gives.mem_valued {name value : String} {group : Argument} (h : Gives name value group) :
    name ∈ valued := by
  cases h <;> decide

theorem names_of_valued {name : String} (h : name ∈ valued) :
    name ≠ "" ∧ '=' ∉ name.toList ∧ valueless? name = none := by
  revert name
  decide

theorem alone_of_lookup {name : String} {group : Argument} (h : flags.lookup name = some group) :
    Alone (long name none) group := by
  have hmem := mem_of_lookup h
  simp only [flags, List.mem_cons, Prod.mk.injEq, List.not_mem_nil, or_false] at hmem
  rcases hmem with ⟨rfl, rfl⟩ | ⟨rfl, rfl⟩ | ⟨rfl, rfl⟩
  · exact .strict
  · exact .keepGoing
  · exact .printRevision

theorem announces_of_lookup {name : String} {notice : Notice}
    (h : notices.lookup name = some notice) : Announces (long name none) notice := by
  have hmem := mem_of_lookup h
  simp only [notices, List.mem_cons, Prod.mk.injEq, List.not_mem_nil, or_false] at hmem
  rcases hmem with ⟨rfl, rfl⟩ | ⟨rfl, rfl⟩
  · exact .help
  · exact .version

theorem lookup_noticeLetters {letter : Char} {notice : Notice} :
    noticeLetters.lookup letter = some notice
      ↔ (letter, notice) ∈ [('h', .help), ('V', .version)] := by
  constructor
  · exact mem_of_lookup
  · intro h
    simp only [List.mem_cons, Prod.mk.injEq, List.not_mem_nil, or_false] at h
    rcases h with ⟨rfl, rfl⟩ | ⟨rfl, rfl⟩ <;> rfl

theorem ofName?_eq_some_iff {value : String} {format : Format} : Format.ofName? value = some format
    ↔ (value, format) ∈ [("hex", Format.hex), ("bin", .bin), ("vhdl", .vhdl)] := by
  constructor
  · intro h
    have hname := List.find?_some h
    obtain rfl : format.name = value := eq_of_beq hname
    cases format <;> decide
  · intro h
    simp only [List.mem_cons, Prod.mk.injEq, List.not_mem_nil, or_false] at h
    rcases h with ⟨rfl, rfl⟩ | ⟨rfl, rfl⟩ | ⟨rfl, rfl⟩ <;> rfl

theorem gives_of_ofValue {name value : String} {group : Argument} (hname : name ∈ valued)
    (h : ofValue name value = .ok group) : Gives name value group := by
  unfold ofValue at h
  split at h
  · cases hformat : Format.ofName? value with
    | none => simp [hformat] at h
    | some format =>
        simp only [hformat, Option.map_some, Except.ok.injEq] at h
        exact h ▸ .format (ofName?_eq_some_iff.mp hformat)
  · cases hrevision : Revision.read value with
    | error e => simp [hrevision, Except.toOption] at h
    | ok revision =>
        simp only [hrevision, Except.toOption, Option.map_some, Except.ok.injEq] at h
        exact h ▸ .revision hrevision
  · rename_i hformat hrevision
    obtain rfl : name = "config" := by
      simp only [valued, List.mem_cons, List.not_mem_nil, or_false] at hname
      exact (hname.resolve_left hformat).resolve_left hrevision
    by_cases hpath : value = ""
    · simp [hpath] at h
    · simp only [hpath, if_false, Except.ok.injEq] at h
      exact h ▸ .config hpath

theorem Gives.ofValue_eq {name value : String} {group : Argument} (h : Gives name value group) :
    ofValue name value = .ok group := by
  unfold ofValue
  cases h with
  | format h => simp [ofName?_eq_some_iff.mpr h]
  | revision h => simp [h, Except.toOption]
  | config h => simp [h]

/-! ## One argument -/

theorem form_long {name : String} {value? : Option String} (h : long name value? ≠ "--") :
    form (long name value?) = formOfOption (body name value?) := by
  have hbody : body name value? ≠ [] := by
    intro hnil
    refine h (String.toList_inj.mp ?_)
    rw [toList_long, hnil]
    rfl
  rw [form, toList_long]
  split
  next heq => exact absurd (List.cons.inj (List.cons.inj heq).2).2 hbody
  next heq => rw [(List.cons.inj (List.cons.inj heq).2).2]
  next hletter heq => exact absurd (List.cons.inj (List.cons.inj heq).2).1.symm hletter
  next hother => exact absurd rfl (hother _ _)

theorem form_valued {name : String} (h : name ∈ valued) (value? : Option String) :
    form (long name value?) = match value? with
      | some value => (ofValue name value).map .complete
      | none => .ok (.waiting name) := by
  obtain ⟨hne, hname, hvalueless⟩ := names_of_valued h
  rw [form_long (long_ne hne value?), formOfOption, splitOption_body hname]
  cases value? <;> simp [hvalueless, h]

theorem gives_of_form {name value : String} {result : Form} (hname : name ∈ valued)
    (h : form (long name (some value)) = .ok result) :
    ∃ group, Gives name value group ∧ result = .complete group := by
  rw [form_valued hname] at h
  cases hgroup : ofValue name value with
  | error e => simp [hgroup, Except.map] at h
  | ok group =>
      simp only [hgroup, Except.map, Except.ok.injEq] at h
      exact ⟨group, gives_of_ofValue hname hgroup, h.symm⟩

theorem form_letter {argument : String} {letter : Char} {rest : List Char}
    (htext : argument.toList = '-' :: letter :: rest) (hletter : letter ≠ '-') {result : Form} :
    form argument = .ok result
      ↔ ∃ notice, noticeLetters.lookup letter = some notice ∧ result = .notice notice := by
  rw [form, htext]
  split
  next heq => exact absurd (List.cons.inj (List.cons.inj heq).2).1 hletter
  next heq => exact absurd (List.cons.inj (List.cons.inj heq).2).1 hletter
  next heq =>
    rw [← (List.cons.inj (List.cons.inj heq).2).1]
    cases noticeLetters.lookup letter <;> simp [eq_comm]
  next hother => exact absurd rfl (hother _ _)

theorem form_bare {argument : String} (h : Bare argument) :
    form argument = (ofPositional argument).map .complete := by
  rw [← isHyphened_eq_false_iff, isHyphened] at h
  rw [form]
  split at h
  next => cases h
  next hother =>
    split
    next heq => exact absurd heq (hother _ _)
    next heq => exact absurd heq (hother _ _)
    next heq => exact absurd heq (hother _ _)
    next => rfl

theorem form_alone {argument : String} {group : Argument} (h : Alone argument group) :
    form argument = .ok (.complete group) := by
  cases h with
  | strict => rfl
  | keepGoing => rfl
  | printRevision => rfl
  | attached h =>
      rw [form_valued h.mem_valued]
      simp only [h.ofValue_eq]
      rfl
  | positional hne hbare =>
      rw [form_bare hbare, ofPositional, if_neg hne]
      rfl

theorem form_announces {argument : String} {notice : Notice} (h : Announces argument notice) :
    form argument = .ok (.notice notice) := by
  cases h with
  | help => rfl
  | version => rfl
  | letter htext hmem =>
      refine (form_letter htext ?_).mpr ⟨notice, lookup_noticeLetters.mpr hmem, rfl⟩
      rintro rfl
      simp at hmem

/-- What an argument that is not refused can be. -/
theorem form_cases {argument : String} {result : Form} (h : form argument = .ok result) :
    (argument = "--" ∧ result = .terminator)
      ∨ (∃ group, Alone argument group ∧ result = .complete group)
      ∨ (∃ name ∈ valued, argument = long name none ∧ result = .waiting name)
      ∨ ∃ notice, Announces argument notice ∧ result = .notice notice := by
  rcases shape_cases argument with rfl | ⟨name, hne, hname, value?, rfl⟩
    | ⟨letter, rest, htext, hletter⟩ | hbare
  · exact .inl ⟨rfl, (Except.ok.inj h).symm⟩
  · by_cases hvalued : name ∈ valued
    · cases value? with
      | none =>
          rw [form_valued hvalued] at h
          exact .inr (.inr (.inl ⟨name, hvalued, rfl, (Except.ok.inj h).symm⟩))
      | some value =>
          obtain ⟨group, hgives, hresult⟩ := gives_of_form hvalued h
          exact .inr (.inl ⟨group, .attached hgives, hresult⟩)
    · rw [form_long hne, formOfOption, splitOption_body hname] at h
      cases hvalueless : valueless? name with
      | none => simp [hvalueless, hvalued] at h
      | some form =>
          cases value? with
          | some value => simp [hvalueless] at h
          | none =>
              simp only [hvalueless, Except.ok.injEq] at h
              subst h
              rw [valueless?] at hvalueless
              cases hflag : flags.lookup name with
              | some group =>
                  simp only [hflag, Option.some.injEq] at hvalueless
                  exact .inr (.inl ⟨group, alone_of_lookup hflag, hvalueless.symm⟩)
              | none =>
                  simp only [hflag, Option.map_eq_some_iff] at hvalueless
                  obtain ⟨notice, hnotice, hform⟩ := hvalueless
                  exact .inr (.inr (.inr ⟨notice, announces_of_lookup hnotice, hform.symm⟩))
  · obtain ⟨notice, hnotice, hresult⟩ := (form_letter htext hletter).mp h
    exact .inr (.inr (.inr ⟨notice, .letter htext (lookup_noticeLetters.mp hnotice), hresult⟩))
  · rw [form_bare hbare, ofPositional] at h
    by_cases hempty : argument = ""
    · simp [hempty, Except.map] at h
    · simp only [hempty, if_false, Except.map, Except.ok.injEq] at h
      exact .inr (.inl ⟨_, .positional hempty hbare, h.symm⟩)

/-! ## Whole lines -/

theorem mapM_ofPositional_eq_ok_iff {paths : List String} {groups : List Argument} :
    paths.mapM ofPositional = .ok groups
      ↔ (∀ path ∈ paths, path ≠ "") ∧ groups = paths.map .positional := by
  induction paths generalizing groups with
  | nil => simp [pure, Except.pure, eq_comm]
  | cons path paths ih =>
      rw [List.mapM_cons, List.forall_mem_cons, ofPositional]
      by_cases hpath : path = ""
      · simp [hpath, bind, Except.bind]
      · rw [if_neg hpath]
        constructor
        · intro h
          obtain ⟨group, hgroup, h⟩ := Options.exists_of_bind_ok h
          obtain ⟨rest, hrest, h⟩ := Options.exists_of_bind_ok h
          cases hgroup
          cases h
          obtain ⟨hpaths, rfl⟩ := ih.mp hrest
          exact ⟨⟨hpath, hpaths⟩, rfl⟩
        · rintro ⟨⟨-, hpaths⟩, rfl⟩
          rw [ih.mpr ⟨hpaths, rfl⟩]
          rfl

theorem CommandLine.groups_eq {arguments : List String} {gs : List Argument}
    {notice? : Option Notice} (h : CommandLine arguments gs notice?) :
    groups arguments = .ok (gs, notice?) := by
  induction h with
  | nil => rw [groups]
  | alone halone _ ih =>
      rw [groups, form_alone halone, ih]
      rfl
  | separate hgives hbare _ ih =>
      rw [groups, form_valued hgives.mem_valued none]
      simp only [bind, Except.bind]
      rw [ih, isHyphened_eq_false_iff.mpr hbare, hgives.ofValue_eq]
      rfl
  | @terminated paths hpaths =>
      have hgroups : paths.mapM ofPositional = .ok (paths.map .positional) :=
        mapM_ofPositional_eq_ok_iff.mpr ⟨hpaths, rfl⟩
      rw [groups, hgroups]
      rfl
  | noticed hannounces =>
      rw [groups, form_announces hannounces]
      rfl

theorem commandLine_of_groups {arguments : List String} {gs : List Argument}
    {notice? : Option Notice} (h : groups arguments = .ok (gs, notice?)) :
    CommandLine arguments gs notice? := by
  fun_induction groups generalizing gs notice? with
  | case1 =>
      cases h
      exact .nil
  | case2 argument rest ihrest ihothers =>
      obtain ⟨result, hform, h⟩ := Options.exists_of_bind_ok h
      rcases form_cases hform with ⟨rfl, rfl⟩ | ⟨group, halone, rfl⟩ | ⟨name, hname, rfl, rfl⟩
        | ⟨notice, hannounces, rfl⟩
      · obtain ⟨paths, hmapM, h⟩ := Options.exists_of_bind_ok h
        cases h
        obtain ⟨hpaths, rfl⟩ := mapM_ofPositional_eq_ok_iff.mp hmapM
        exact .terminated hpaths
      · obtain ⟨⟨others, notice?⟩, hothers, h⟩ := Options.exists_of_bind_ok h
        cases h
        exact .alone halone (ihrest hothers)
      · cases rest with
        | nil => cases h
        | cons value others =>
            cases hhyphen : isHyphened value with
            | true => simp [hhyphen] at h
            | false =>
                simp only [hhyphen, Bool.false_eq_true, if_false] at h
                obtain ⟨group, hgroup, h⟩ := Options.exists_of_bind_ok h
                obtain ⟨⟨groups, notice?⟩, hgroups, h⟩ := Options.exists_of_bind_ok h
                cases h
                exact .separate (gives_of_ofValue hname hgroup)
                  (isHyphened_eq_false_iff.mp hhyphen) (ihothers hgroups)
      · cases h
        exact .noticed hannounces

/-- The reader finds groups, and a notice, in exactly the command lines. -/
theorem groups_eq_ok_iff {arguments : List String} {gs : List Argument}
    {notice? : Option Notice} :
    groups arguments = .ok (gs, notice?) ↔ CommandLine arguments gs notice? :=
  ⟨commandLine_of_groups, CommandLine.groups_eq⟩

/-! ## Where groups begin -/

section Begin

variable {before after : List String} {argument name value : String} {group : Argument}
  {groups : List Argument} {notice? : Option Notice}

theorem not_bare_terminator : ¬ Bare "--" := not_bare_long "" none

theorem Alone.eq_positional (h : Alone argument group) (hbare : Bare argument) :
    group = .positional argument := by
  cases h with
  | strict => exact absurd hbare (not_bare_long "strict" none)
  | keepGoing => exact absurd hbare (not_bare_long "keep-going" none)
  | printRevision => exact absurd hbare (not_bare_long "print-revision" none)
  | attached _ => exact absurd hbare (not_bare_long _ _)
  | positional _ _ => rfl

theorem Alone.ne_terminator (h : Alone argument group) : argument ≠ "--" := by
  cases h with
  | strict => decide
  | keepGoing => decide
  | printRevision => decide
  | attached hgives => exact long_ne (names_of_valued hgives.mem_valued).1 _
  | positional _ hbare => exact fun heq => not_bare_terminator (heq ▸ hbare)

theorem Announces.not_bare {notice : Notice} (h : Announces argument notice) :
    ¬ Bare argument := by
  cases h with
  | help => exact not_bare_long "help" none
  | version => exact not_bare_long "version" none
  | letter htext _ =>
      rw [← isHyphened_eq_false_iff, isHyphened, htext]
      exact Bool.noConfusion

theorem Announces.ne_terminator {notice : Notice} (h : Announces argument notice) :
    argument ≠ "--" := by
  rintro rfl
  cases form_announces h

/-- The last of the arguments is not an option that awaits its value. -/
def NotAwaiting (before : List String) : Prop :=
  ∀ name ∈ valued, before.getLast? ≠ some (long name none)

theorem NotAwaiting.tail (h : NotAwaiting (argument :: before)) : NotAwaiting before := by
  intro name hname hlast
  refine h name hname ?_
  rw [List.getLast?_cons, hlast]
  rfl

/-- A group begins with the argument: everything is positional there, or the
argument looks like an option, or none awaits it as its value. -/
def Begins (before : List String) (argument : String) : Prop :=
  "--" ∈ before ∨ ¬ Bare argument ∨ NotAwaiting before

theorem Begins.tail {first : String} (h : Begins (first :: before) argument)
    (hne : first ≠ "--") : Begins before argument := by
  rcases h with hmem | hbare | hawaiting
  · exact .inl (List.mem_of_ne_of_mem hne.symm hmem)
  · exact .inr (.inl hbare)
  · exact .inr (.inr hawaiting.tail)

/-- None of the arguments asks for a notice. Behind two hyphens none can. -/
def Quiet (before : List String) : Prop :=
  ∀ argument ∈ before.takeWhile (· ≠ "--"), ∀ notice, ¬ Announces argument notice

theorem Quiet.not_announces {first : String} (h : Quiet (first :: before)) (notice : Notice) :
    ¬ Announces first notice := by
  intro hannounces
  refine h first ?_ notice hannounces
  simp [hannounces.ne_terminator]

theorem Quiet.tail {first : String} (h : Quiet (first :: before)) (hne : first ≠ "--") :
    Quiet before := by
  intro argument hmem
  refine h argument ?_
  rw [List.takeWhile_cons, if_pos (by simpa using hne)]
  exact List.mem_cons_of_mem _ hmem

theorem Quiet.left {more : List String} (h : Quiet (before ++ more)) : Quiet before := by
  intro argument hmem
  refine h argument ?_
  rw [List.takeWhile_append]
  split
  · exact List.mem_append_left _ ((List.takeWhile_sublist _).subset hmem)
  · exact hmem

/-- A command line can be cut where a group begins, if no notice is asked for
before. What follows is a command line again, or all positional if two hyphens
stand before the cut. -/
theorem CommandLine.cut (h : CommandLine (before ++ argument :: after) groups notice?)
    (hquiet : Quiet before) (hbegins : Begins before argument) :
    ∃ groups₁ groups₂, CommandLine before groups₁ none ∧ groups = groups₁ ++ groups₂
      ∧ ("--" ∉ before → CommandLine (argument :: after) groups₂ notice?)
      ∧ ("--" ∈ before → groups₂ = (argument :: after).map .positional) := by
  generalize harguments : before ++ argument :: after = arguments at h
  induction h generalizing before with
  | nil => simp at harguments
  | alone halone hrest ih =>
      cases before with
      | nil =>
          cases harguments
          exact ⟨[], _, .nil, rfl, fun _ => .alone halone hrest, by simp⟩
      | cons first before =>
          rw [List.cons_append, List.cons.injEq] at harguments
          obtain ⟨rfl, hbefore⟩ := harguments
          have hne := halone.ne_terminator
          obtain ⟨groups₁, groups₂, h₁, rfl, hplain, hterminated⟩ :=
            ih (hquiet.tail hne) (hbegins.tail hne) hbefore
          exact ⟨_, groups₂, .alone halone h₁, rfl,
            fun hnot => hplain fun hmem => hnot (List.mem_cons_of_mem _ hmem),
            fun hmem => hterminated (List.mem_of_ne_of_mem hne.symm hmem)⟩
  | separate hgives hbare hrest ih =>
      have hne : long _ none ≠ "--" := long_ne (names_of_valued hgives.mem_valued).1 none
      rcases before with _ | ⟨first, _ | ⟨second, before⟩⟩
      · cases harguments
        exact ⟨[], _, .nil, rfl, fun _ => .separate hgives hbare hrest, by simp⟩
      · -- The cut would fall between the option and its value.
        cases harguments
        rcases hbegins with hmem | hnot | hawaiting
        · exact absurd (List.mem_singleton.mp hmem).symm hne
        · exact absurd hbare hnot
        · exact absurd rfl (hawaiting _ hgives.mem_valued)
      · rw [List.cons_append, List.cons_append, List.cons.injEq, List.cons.injEq] at harguments
        obtain ⟨rfl, rfl, hbefore⟩ := harguments
        have hne' : second ≠ "--" := fun heq => not_bare_terminator (heq ▸ hbare)
        obtain ⟨groups₁, groups₂, h₁, rfl, hplain, hterminated⟩ :=
          ih ((hquiet.tail hne).tail hne') ((hbegins.tail hne).tail hne') hbefore
        refine ⟨_, groups₂, .separate hgives hbare h₁, rfl, fun hnot => hplain fun hmem => ?_,
          fun hmem => hterminated ?_⟩
        · exact hnot (List.mem_cons_of_mem _ (List.mem_cons_of_mem _ hmem))
        · exact List.mem_of_ne_of_mem hne'.symm (List.mem_of_ne_of_mem hne.symm hmem)
  | terminated hpaths =>
      cases before with
      | nil =>
          cases harguments
          exact ⟨[], _, .nil, rfl, fun _ => .terminated hpaths, by simp⟩
      | cons first before =>
          rw [List.cons_append, List.cons.injEq] at harguments
          obtain ⟨rfl, rfl⟩ := harguments
          refine ⟨before.map .positional, (argument :: after).map .positional, ?_, by simp, ?_, ?_⟩
          · exact .terminated fun path hpath => hpaths path (List.mem_append_left _ hpath)
          · exact fun hnot => absurd (List.mem_cons_self ..) hnot
          · exact fun _ => rfl
  | noticed hannounces =>
      cases before with
      | nil =>
          cases harguments
          exact ⟨[], _, .nil, rfl, fun _ => .noticed hannounces, by simp⟩
      | cons first before =>
          rw [List.cons_append, List.cons.injEq] at harguments
          obtain ⟨rfl, -⟩ := harguments
          exact absurd hannounces (hquiet.not_announces _)

/-- A notice that is asked for after a command line ends it. -/
theorem CommandLine.append_noticed {notice : Notice} (h : CommandLine before groups none)
    (hterminator : "--" ∉ before) (hannounces : Announces argument notice) :
    CommandLine (before ++ argument :: after) groups (some notice) := by
  generalize hnone : (none : Option Notice) = notice? at h
  induction h with
  | nil => exact .noticed hannounces
  | alone halone _ ih =>
      exact .alone halone (ih (fun hmem => hterminator (List.mem_cons_of_mem _ hmem)) hnone)
  | separate hgives hbare _ ih =>
      refine .separate hgives hbare (ih (fun hmem => hterminator ?_) hnone)
      exact List.mem_cons_of_mem _ (List.mem_cons_of_mem _ hmem)
  | terminated _ => exact absurd (List.mem_cons_self ..) hterminator
  | noticed _ => cases hnone

/-! ## Options and positional arguments in a line -/

/-- The name of the option that a group is, if it is one. -/
def option? : Argument → Option String
  | .format _ => some "format"
  | .revision _ => some "revision"
  | .config _ => some "config"
  | .strict => some "strict"
  | .keepGoing => some "keep-going"
  | .printRevision => some "print-revision"
  | .positional _ => none

theorem Gives.option?_eq (h : Gives name value group) : group.option? = some name := by
  cases h <;> rfl

theorem Names.not_bare (h : Names argument name) : ¬ Bare argument := by
  obtain ⟨-, -, value?, rfl⟩ := h
  exact not_bare_long name value?

theorem Names.eq_of_long {name' : String} {value? : Option String}
    (h : Names (long name' value?) name) (hname' : '=' ∉ name'.toList) : name' = name := by
  obtain ⟨-, hname, value?', hlong⟩ := h
  exact (long_inj hname' hname hlong).1

theorem Gives.option?_of_names (h : Gives name value group) {name' : String}
    {value? : Option String} (hnames : Names (long name value?) name') :
    group.option? = some name' := by
  rw [h.option?_eq, hnames.eq_of_long (names_of_valued h.mem_valued).2.1]

theorem Alone.option?_of_names (h : Alone argument group) (hnames : Names argument name) :
    group.option? = some name := by
  cases h with
  | strict =>
      have hlong : Names (long "strict" none) name := hnames
      exact congrArg some (hlong.eq_of_long (by decide))
  | keepGoing =>
      have hlong : Names (long "keep-going" none) name := hnames
      exact congrArg some (hlong.eq_of_long (by decide))
  | printRevision =>
      have hlong : Names (long "print-revision" none) name := hnames
      exact congrArg some (hlong.eq_of_long (by decide))
  | attached hgives => exact hgives.option?_of_names hnames
  | positional _ hbare => exact absurd hbare hnames.not_bare

theorem Announces.name_eq {notice : Notice} (h : Announces argument notice)
    (hnames : Names argument name) : name = "help" ∨ name = "version" := by
  cases h with
  | help =>
      have hlong : Names (long "help" none) name := hnames
      exact .inl (hlong.eq_of_long (by decide)).symm
  | version =>
      have hlong : Names (long "version" none) name := hnames
      exact .inr (hlong.eq_of_long (by decide)).symm
  | letter htext hmem =>
      obtain ⟨-, -, value?, rfl⟩ := hnames
      rw [toList_long] at htext
      rw [← (List.cons.inj (List.cons.inj htext).2).1] at hmem
      simp at hmem

/-- An option anywhere in a line is a group of it, or asks for the notice that
ends the line, unless one was asked for before. -/
theorem CommandLine.exists_option (h : CommandLine (before ++ argument :: after) groups notice?)
    (hterminator : "--" ∉ before) (hquiet : Quiet before) (hnames : Names argument name) :
    ∃ groups₁ groups₂, CommandLine before groups₁ none ∧ groups = groups₁ ++ groups₂
      ∧ ((∃ group ∈ groups₂, group.option? = some name)
        ∨ ∃ notice, notice? = some notice ∧ Announces argument notice) := by
  obtain ⟨groups₁, groups₂, h₁, hgroups, hplain, -⟩ := h.cut hquiet (.inr (.inl hnames.not_bare))
  refine ⟨groups₁, groups₂, h₁, hgroups, ?_⟩
  cases hplain hterminator with
  | alone halone _ =>
      exact .inl ⟨_, List.mem_cons_self .., halone.option?_of_names hnames⟩
  | separate hgives _ _ =>
      exact .inl ⟨_, List.mem_cons_self .., hgives.option?_of_names hnames⟩
  | terminated _ => exact absurd rfl hnames.1
  | noticed hannounces => exact .inr ⟨_, rfl, hannounces⟩

/-- The option that the argument is has this value, behind its equals sign or
as the next argument. -/
def HasValue (argument : String) (after : List String) (name value : String) : Prop :=
  argument = long name (some value) ∨ argument = long name none ∧ after.head? = some value

/-- An option anywhere in a line has a value that it takes, unless a notice
comes first. -/
theorem CommandLine.exists_gives (h : CommandLine (before ++ argument :: after) groups notice?)
    (hterminator : "--" ∉ before) (hquiet : Quiet before) (hname : name ∈ valued)
    (hvalue : HasValue argument after name value) : ∃ group, Gives name value group := by
  obtain ⟨hne, hequals, -⟩ := names_of_valued hname
  have hnames : Names argument name := by
    rcases hvalue with rfl | ⟨rfl, -⟩ <;> exact ⟨long_ne hne _, hequals, _, rfl⟩
  obtain ⟨groups₁, groups₂, h₁, rfl, hplain, -⟩ := h.cut hquiet (.inr (.inl hnames.not_bare))
  cases hplain hterminator with
  | alone halone _ =>
      rcases hvalue with rfl | ⟨rfl, -⟩
      · obtain ⟨group, hgives, -⟩ := gives_of_form hname (form_alone halone)
        exact ⟨group, hgives⟩
      · -- An option that awaits its value is no group by itself.
        have hwaiting := form_valued hname none
        cases hwaiting.symm.trans (form_alone halone)
  | separate hgives _ _ =>
      have hsame := hnames.eq_of_long (names_of_valued hgives.mem_valued).2.1
      rcases hvalue with hlong | ⟨-, hnext⟩
      · cases (long_inj (names_of_valued hgives.mem_valued).2.1 hequals hlong).2
      · cases hnext
        exact ⟨_, hsame ▸ hgives⟩
  | terminated _ => exact absurd rfl hnames.1
  | noticed hannounces =>
      rcases hannounces.name_eq hnames with rfl | rfl <;> simp [valued] at hname

/-- The argument is positional: it stands behind two hyphens, or it is neither
an option nor the value of one. -/
def Positional (before : List String) (argument : String) : Prop :=
  "--" ∈ before ∨ Bare argument ∧ NotAwaiting before

/-- A positional argument anywhere in a line is a group of it, unless a notice
comes first. -/
theorem CommandLine.exists_positional
    (h : CommandLine (before ++ argument :: after) groups notice?) (hquiet : Quiet before)
    (hpositional : Positional before argument) :
    ∃ groups₁ groups₂, CommandLine before groups₁ none
      ∧ groups = groups₁ ++ .positional argument :: groups₂ := by
  obtain ⟨groups₁, groups₂, h₁, rfl, hplain, hterminated⟩ :=
    h.cut hquiet (hpositional.imp_right fun hbare => .inr hbare.2)
  by_cases hterminator : "--" ∈ before
  · exact ⟨groups₁, _, h₁, congrArg _ (hterminated hterminator)⟩
  · obtain ⟨hbare, -⟩ := hpositional.resolve_left hterminator
    cases hplain hterminator with
    | alone halone _ => exact ⟨groups₁, _, h₁, by rw [halone.eq_positional hbare]⟩
    | separate _ _ _ => exact absurd hbare (not_bare_long _ _)
    | terminated _ => exact absurd hbare not_bare_terminator
    | noticed hannounces => exact absurd hbare hannounces.not_bare

end Begin

end Argument

end LineAsm
