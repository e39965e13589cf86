import LineAsm.Command.FileTree

/-!
# Files before and after a write

A write fills a file or makes one. Either way directories, links and the
working directory stay, and so does which places share a file
(`Kept`); and paths are followed through directories and links only, so
a path that led somewhere before a write leads there after it as well
(`Kept.locate`). What one write does is not undone by how later paths
are read.

`Written before after texts` says what is left of a number of writes:
each path leads to its text, at all places of the file, and files to
which no path leads hold what they held. It is true of no writes at all
and is kept by one write more (`Written.write`): a text in a file of its
own is added to the others, and of two texts in one file the later is
left (`Written.of_not_apart`).
-/

namespace LineAsm

theorem mem_of_lookup {α β : Type} [BEq α] [LawfulBEq α] {table : List (α × β)} {a : α} {b : β}
    (h : table.lookup a = some b) : (a, b) ∈ table := by
  obtain ⟨before, after, rfl, -⟩ := List.lookup_eq_some_iff.mp h
  exact List.mem_append_right _ (List.mem_cons_self ..)

namespace FileTree

/-! ## Numbers and contents -/

theorem lookup_of_entryAt? {tree : FileTree} {place : List String} {found : Option Entry}
    (h : tree.entryAt? place = found) (hfound : found ≠ some .directory) :
    place ≠ [] ∧ tree.entries.lookup place = found := by
  by_cases hplace : place = []
  · exact absurd (h.symm.trans (if_pos hplace)) hfound
  · exact ⟨hplace, (if_neg hplace).symm.trans h⟩

theorem bound_le_fresh {tree : FileTree} {place : List String} {entry : Entry}
    (h : (place, entry) ∈ tree.entries) : entry.bound ≤ tree.fresh := by
  rw [fresh]
  generalize tree.entries = entries at h
  induction entries with
  | nil => cases h
  | cons head rest ih =>
      rw [List.foldr_cons]
      rcases List.mem_cons.mp h with rfl | hrest
      · exact Nat.le_max_left ..
      · exact Nat.le_trans (ih hrest) (Nat.le_max_right ..)

/-- No file has the number of a new one. -/
theorem number_ne_fresh {tree : FileTree} {place : List String} {number : Nat}
    (h : tree.entryAt? place = some (.file number)) : number ≠ tree.fresh := by
  obtain ⟨-, hlookup⟩ := lookup_of_entryAt? h (by simp)
  have hbound : Entry.bound (.file number) ≤ tree.fresh := bound_le_fresh (mem_of_lookup hlookup)
  rw [Entry.bound] at hbound
  omega

@[simp] theorem entryAt?_fill (tree : FileTree) (number : Nat) (content : Content)
    (place : List String) : (tree.fill number content).entryAt? place = tree.entryAt? place := rfl

theorem content_fill (tree : FileTree) (number : Nat) (content : Content) (other : Nat) :
    (tree.fill number content).content other
      = if other = number then content else tree.content other := by
  rw [FileTree.content, fill, List.lookup_cons]
  by_cases hother : other = number
  · simp [hother]
  · simp [hother, beq_eq_false_iff_ne.mpr hother, FileTree.content]

theorem entryAt?_create {tree : FileTree} {place : List String}
    (hvacant : tree.entryAt? place = none) (content : Content) (other : List String) :
    (tree.create place content).entryAt? other
      = if other = place then some (.file tree.fresh) else tree.entryAt? other := by
  obtain ⟨hplace, hlookup⟩ := lookup_of_entryAt? hvacant (by simp)
  rw [entryAt?, entryAt?, create, List.lookup_append]
  by_cases hother : other = place
  · simp [hother, hplace, hlookup]
  · simp [hother, List.lookup_cons, beq_eq_false_iff_ne.mpr hother]

theorem content_create (tree : FileTree) (place : List String) (content : Content) (number : Nat) :
    (tree.create place content).content number
      = if number = tree.fresh then content else tree.content number :=
  content_fill tree tree.fresh content number

/-! ## What a write keeps -/

/-- One file stands at both places, or would if it were made. -/
def Same (tree : FileTree) (place other : List String) : Prop :=
  place = other ∨ ∃ number, tree.entryAt? place = some (.file number)
    ∧ tree.entryAt? other = some (.file number)

theorem Same.symm {tree : FileTree} {place other : List String} (h : tree.Same place other) :
    tree.Same other place := by
  rcases h with rfl | ⟨number, hplace, hother⟩
  · exact .inl rfl
  · exact .inr ⟨number, hother, hplace⟩

theorem Same.trans {tree : FileTree} {place other third : List String}
    (h : tree.Same place other) (h' : tree.Same other third) : tree.Same place third := by
  rcases h with rfl | ⟨number, hplace, hother⟩
  · exact h'
  · rcases h' with rfl | ⟨number', hother', hthird⟩
    · exact .inr ⟨number, hplace, hother⟩
    · cases hother.symm.trans hother'
      exact .inr ⟨number, hplace, hthird⟩

/-- Everything but what the files hold is as it was, new files apart. -/
structure Kept (before after : FileTree) : Prop where
  working : after.working = before.working
  directories : ∀ place, after.entryAt? place = some .directory
    ↔ before.entryAt? place = some .directory
  links : ∀ place target, after.entryAt? place = some (.link target)
    ↔ before.entryAt? place = some (.link target)
  same : ∀ place other, after.Same place other ↔ before.Same place other

theorem Kept.refl (tree : FileTree) : tree.Kept tree :=
  ⟨rfl, fun _ => .rfl, fun _ _ => .rfl, fun _ _ => .rfl⟩

theorem Kept.trans {before middle after : FileTree} (h : before.Kept middle)
    (h' : middle.Kept after) : before.Kept after where
  working := h'.working.trans h.working
  directories place := (h'.directories place).trans (h.directories place)
  links place target := (h'.links place target).trans (h.links place target)
  same place other := (h'.same place other).trans (h.same place other)

theorem kept_fill (tree : FileTree) (number : Nat) (content : Content) :
    tree.Kept (tree.fill number content) :=
  ⟨rfl, fun _ => .rfl, fun _ _ => .rfl, fun _ _ => .rfl⟩

theorem kept_create {tree : FileTree} {place : List String} (hvacant : tree.entryAt? place = none)
    (content : Content) : tree.Kept (tree.create place content) where
  working := rfl
  directories other := by
    rw [entryAt?_create hvacant]
    split
    next heq => simp [heq, hvacant]
    next => rfl
  links other target := by
    rw [entryAt?_create hvacant]
    split
    next heq => simp [heq, hvacant]
    next => rfl
  same first second := by
    by_cases hne : first = second
    · exact iff_of_true (.inl hne) (.inl hne)
    refine or_congr_right (exists_congr fun number => ?_)
    rw [entryAt?_create hvacant, entryAt?_create hvacant]
    -- The new file has a number of its own, so it shares no place with another.
    by_cases hfirst : first = place
    · have hsecond : second ≠ place := fun heq => hne (hfirst.trans heq.symm)
      simp only [hfirst, hsecond, hvacant, if_true, if_false, Option.some.injEq, Entry.file.injEq]
      refine iff_of_false (fun h => ?_) (fun h => nomatch h.1)
      exact number_ne_fresh h.2 h.1.symm
    · by_cases hsecond : second = place
      · simp only [hfirst, hsecond, hvacant, if_true, if_false, Option.some.injEq,
          Entry.file.injEq]
        refine iff_of_false (fun h => ?_) (fun h => nomatch h.2)
        exact number_ne_fresh h.1 h.2.symm
      · simp only [hfirst, hsecond, if_false]

theorem Kept.entry_cases {tree after : FileTree} (h : tree.Kept after) {place : List String}
    (hdirectory : tree.entryAt? place ≠ some .directory)
    (hlink : ∀ target, tree.entryAt? place ≠ some (.link target)) :
    after.entryAt? place = none ∨ ∃ number, after.entryAt? place = some (.file number) := by
  rcases hentry : after.entryAt? place with _ | (number | _ | target)
  · exact .inl rfl
  · exact .inr ⟨number, rfl⟩
  · exact absurd ((h.directories place).mp hentry) hdirectory
  · exact absurd ((h.links place target).mp hentry) (hlink target)

/-! ## Following paths -/

section Follow

variable {tree after : FileTree} {use use' : Use} {directory place rest : List String}
  {name target : String}
  {jump jump' : List String → String → List String → Except FileError (List String)}

theorem walk_directory (hhere : ¬ (name = "" ∨ name = ".")) (hup : name ≠ "..")
    (hslash : ¬ (use = .write ∧ onlySlashes rest))
    (hentry : tree.entryAt? (directory ++ [name]) = some .directory) :
    tree.walk use jump directory (name :: rest)
      = tree.walk use jump (directory ++ [name]) rest := by
  rw [walk, if_neg hhere, if_neg hup, if_neg hslash, hentry]

theorem walk_link (hhere : ¬ (name = "" ∨ name = ".")) (hup : name ≠ "..")
    (hslash : ¬ (use = .write ∧ onlySlashes rest))
    (hentry : tree.entryAt? (directory ++ [name]) = some (.link target)) :
    tree.walk use jump directory (name :: rest) = jump directory target rest := by
  rw [walk, if_neg hhere, if_neg hup, if_neg hslash, hentry]

/-- The last name may be that of a file or of nothing. -/
theorem walk_last (hhere : ¬ (name = "" ∨ name = ".")) (hup : name ≠ "..")
    (hentry : tree.entryAt? (directory ++ [name]) = none
      ∨ ∃ number, tree.entryAt? (directory ++ [name]) = some (.file number)) :
    tree.walk use jump directory [name] = .ok (directory ++ [name]) := by
  have hslash : ¬ (use = .write ∧ onlySlashes []) := fun h => nomatch h.2
  rcases hentry with hentry | ⟨number, hentry⟩ <;>
    rw [walk, if_neg hhere, if_neg hup, if_neg hslash, hentry] <;> exact if_pos rfl

/-- Following names depends on directories and links alone. What can be written
can be read as well. -/
theorem Kept.walk (h : tree.Kept after) (huse : use' = use ∨ use' = .read)
    (hjump : ∀ directory target rest, jump directory target rest = .ok place →
      jump' directory target rest = .ok place)
    {names : List String} (hwalk : tree.walk use jump directory names = .ok place) :
    after.walk use' jump' directory names = .ok place := by
  have hslash {rest : List String} (hnot : ¬ (use = .write ∧ onlySlashes rest)) :
      ¬ (use' = .write ∧ onlySlashes rest) := by
    rintro ⟨rfl, hrest⟩
    rcases huse with rfl | huse
    · exact hnot ⟨rfl, hrest⟩
    · cases huse
  fun_induction tree.walk use jump directory names with
  | case1 directory => exact hwalk
  | case2 directory name rest hhere ih =>
      rw [FileTree.walk, if_pos hhere]
      exact ih hwalk
  | case3 directory rest hhere ih =>
      rw [FileTree.walk, if_neg hhere, if_pos rfl]
      exact ih hwalk
  | case4 => cases hwalk
  | case5 directory name rest hhere hup hnot hentry ih =>
      rw [walk_directory hhere hup (hslash hnot) ((h.directories _).mpr hentry)]
      exact ih hwalk
  | case6 directory name rest hhere hup hnot target hentry =>
      rw [walk_link hhere hup (hslash hnot) ((h.links _ _).mpr hentry)]
      exact hjump _ _ _ hwalk
  | case7 directory name hhere hup number hentry =>
      rw [walk_last hhere hup (h.entry_cases (by simp [hentry]) (by simp [hentry]))]
      exact hwalk
  | case8 => cases hwalk
  | case9 directory name hhere hup hentry =>
      rw [walk_last hhere hup (h.entry_cases (by simp [hentry]) (by simp [hentry]))]
      exact hwalk
  | case10 => cases hwalk

theorem Kept.follow (h : tree.Kept after) (huse : use' = use ∨ use' = .read) {links : Nat}
    {names : List String} (hfollow : tree.follow use links directory names = .ok place) :
    after.follow use' links directory names = .ok place := by
  induction links generalizing directory names with
  | zero =>
      rw [FileTree.follow] at hfollow ⊢
      exact h.walk huse (fun _ _ _ hjump => hjump) hfollow
  | succ links ih => exact h.walk huse (fun _ _ _ hjump => ih hjump) hfollow

theorem Kept.locate (h : tree.Kept after) (huse : use' = use ∨ use' = .read) {path : String}
    (hlocate : tree.locate use path = .ok place) : after.locate use' path = .ok place := by
  rw [FileTree.locate] at hlocate ⊢
  rw [h.working]
  exact h.follow huse hlocate

/-- The place and all places above it are directories. -/
def Stands (tree : FileTree) (directory : List String) : Prop :=
  ∀ above, above <+: directory → tree.entryAt? above = some .directory

theorem stands_root (tree : FileTree) : tree.Stands [] := by
  intro above habove
  rw [List.prefix_nil.mp habove]
  rfl

theorem Stands.append (h : tree.Stands directory)
    (hentry : tree.entryAt? (directory ++ [name]) = some .directory) :
    tree.Stands (directory ++ [name]) := by
  intro above habove
  rcases List.prefix_concat_iff.mp habove with rfl | habove
  · exact hentry
  · exact h above habove

theorem Stands.dropLast (h : tree.Stands directory) : tree.Stands directory.dropLast :=
  fun above habove => h above (habove.trans directory.dropLast_prefix)

theorem walk_ne_link (hstands : tree.Stands directory)
    (hjump : ∀ directory target rest, tree.Stands directory →
      jump directory target rest = .ok place → ∀ other, tree.entryAt? place ≠ some (.link other))
    {names : List String} (hwalk : tree.walk use jump directory names = .ok place) :
    ∀ other, tree.entryAt? place ≠ some (.link other) := by
  fun_induction tree.walk use jump directory names with
  | case1 directory =>
      cases hwalk
      simp [hstands _ (List.prefix_refl _)]
  | case2 directory name rest hhere ih => exact ih hstands hwalk
  | case3 directory rest hhere ih => exact ih hstands.dropLast hwalk
  | case4 => cases hwalk
  | case5 directory name rest hhere hup hnot hentry ih => exact ih (hstands.append hentry) hwalk
  | case6 directory name rest hhere hup hnot target hentry =>
      exact hjump directory target rest hstands hwalk
  | case7 directory name hhere hup number hentry =>
      cases hwalk
      simp [hentry]
  | case8 => cases hwalk
  | case9 directory name hhere hup hentry =>
      cases hwalk
      simp [hentry]
  | case10 => cases hwalk

theorem follow_ne_link {links : Nat} {names : List String} (hstands : tree.Stands directory)
    (hfollow : tree.follow use links directory names = .ok place) :
    ∀ other, tree.entryAt? place ≠ some (.link other) := by
  induction links generalizing directory names with
  | zero =>
      rw [follow] at hfollow
      exact walk_ne_link hstands (fun _ _ _ _ hjump => by cases hjump) hfollow
  | succ links ih =>
      refine walk_ne_link hstands (fun directory target rest hstands hjump => ?_) hfollow
      refine ih ?_ hjump
      split
      · exact tree.stands_root
      · exact hstands

/-- Paths lead through links, never to one. -/
theorem locate_ne_link {path : String} (h : tree.locate use path = .ok place) (target : String) :
    tree.entryAt? place ≠ some (.link target) :=
  follow_ne_link tree.stands_root h target

end Follow

/-! ## Reading and writing -/

theorem readText_eq_ok_iff {tree : FileTree} {path text : String} :
    tree.readText path = .ok text
      ↔ ∃ place, tree.locate .read path = .ok place
        ∧ tree.contentAt? place = some (.text text) := by
  rw [readText]
  cases tree.locate .read path with
  | error cause => simp [bind, Except.bind]
  | ok place =>
      simp only [bind, Except.bind, Except.ok.injEq, exists_eq_left', contentAt?]
      rcases tree.entryAt? place with _ | (number | _ | target)
      · simp
      · simp only [Option.some.injEq]
        cases tree.content number <;> simp
      · simp
      · simp

/-- All that a write can do: it fills the file at a place, or makes one there. -/
inductive Writes (tree : FileTree) (place : List String) (text : String) : FileTree → Prop where
  | fill {number : Nat} : tree.entryAt? place = some (.file number) →
      Writes tree place text (tree.fill number (.text text))
  | create : tree.entryAt? place = none → Writes tree place text (tree.create place (.text text))

theorem writeText_eq_ok_iff {tree after : FileTree} {path text : String} :
    tree.writeText path text = .ok after
      ↔ ∃ place, tree.locate .write path = .ok place ∧ tree.Writes place text after := by
  rw [writeText]
  cases hlocate : tree.locate .write path with
  | error cause => simp [bind, Except.bind]
  | ok place =>
      simp only [bind, Except.bind, Except.ok.injEq, exists_eq_left']
      have hlink := locate_ne_link hlocate
      constructor
      · intro h
        rcases hentry : tree.entryAt? place with _ | (number | _ | target) <;>
          simp only [hentry, Except.ok.injEq, reduceCtorEq] at h
        · exact h ▸ .create hentry
        · exact h ▸ .fill hentry
        · exact absurd hentry (hlink target)
      · rintro (hentry | hentry) <;> simp only [hentry]

section Writes

variable {tree after : FileTree} {place other : List String} {text : String}

theorem Writes.kept (h : tree.Writes place text after) : tree.Kept after := by
  cases h with
  | fill _ => exact kept_fill ..
  | create hvacant => exact kept_create hvacant _

theorem Writes.contentAt?_of_same (h : tree.Writes place text after)
    (hsame : tree.Same place other) : after.contentAt? other = some (.text text) := by
  cases h with
  | @fill number hentry =>
      have hother : tree.entryAt? other = some (.file number) := by
        rcases hsame with rfl | ⟨number', hplace, hother⟩
        · exact hentry
        · cases hentry.symm.trans hplace
          exact hother
      simp [contentAt?, hother, content_fill]
  | create hvacant =>
      obtain rfl : place = other := by
        rcases hsame with heq | ⟨number, hplace, -⟩
        · exact heq
        · cases hvacant.symm.trans hplace
      simp [contentAt?, entryAt?_create hvacant, content_create]

theorem Writes.contentAt?_of_not_same (h : tree.Writes place text after)
    (hsame : ¬ tree.Same place other) : after.contentAt? other = tree.contentAt? other := by
  rw [Same, not_or, not_exists] at hsame
  cases h with
  | @fill number hentry =>
      rw [contentAt?, contentAt?, entryAt?_fill]
      rcases hother : tree.entryAt? other with _ | (number' | _ | target)
      · rfl
      · have hne : number' ≠ number := by
          rintro rfl
          exact hsame.2 _ ⟨hentry, hother⟩
        simp [content_fill, hne]
      · rfl
      · rfl
  | create hvacant =>
      rw [contentAt?, contentAt?, entryAt?_create hvacant, if_neg (Ne.symm hsame.1)]
      rcases hother : tree.entryAt? other with _ | (number' | _ | target)
      · rfl
      · simp [content_create, number_ne_fresh hother]
      · rfl
      · rfl

end Writes

/-- Can texts be written to a path? -/
def Writable (tree : FileTree) (path : String) : Prop :=
  ∀ text, ∃ after, tree.writeText path text = .ok after

theorem writable_iff {tree : FileTree} {path : String} :
    tree.Writable path ↔ ∃ place, tree.locate .write path = .ok place
      ∧ tree.entryAt? place ≠ some .directory := by
  constructor
  · intro h
    obtain ⟨after, hafter⟩ := h ""
    obtain ⟨place, hlocate, hwrites⟩ := writeText_eq_ok_iff.mp hafter
    refine ⟨place, hlocate, ?_⟩
    cases hwrites with
    | fill hentry => simp [hentry]
    | create hvacant => simp [hvacant]
  · rintro ⟨place, hlocate, hdirectory⟩ text
    simp only [writeText_eq_ok_iff, hlocate]
    rcases (Kept.refl tree).entry_cases hdirectory (locate_ne_link hlocate) with
      hentry | ⟨number, hentry⟩
    · exact ⟨_, place, rfl, .create hentry⟩
    · exact ⟨_, place, rfl, .fill hentry⟩

theorem Kept.writable {before after : FileTree} (h : before.Kept after) {path : String}
    (hwritable : before.Writable path) : after.Writable path := by
  obtain ⟨place, hlocate, hdirectory⟩ := writable_iff.mp hwritable
  exact writable_iff.mpr
    ⟨place, h.locate (.inl rfl) hlocate, mt (h.directories place).mp hdirectory⟩

/-! ## Several writes -/

/-- The file to which a path leads stands at the place, or is made there. -/
def Reaches (tree : FileTree) (path : String) (place : List String) : Prop :=
  ∃ main, tree.locate .write path = .ok main ∧ tree.Same main place

/-- Two paths lead to different files. -/
def Apart (tree : FileTree) (path other : String) : Prop :=
  ∀ place, tree.Reaches path place → ¬ tree.Reaches other place

theorem reaches_of_not_apart {tree : FileTree} {path other : String} {place : List String}
    (h : ¬ tree.Apart path other) (hpath : tree.Reaches path place) : tree.Reaches other place := by
  simp only [Apart, Classical.not_forall, Classical.not_not, exists_prop] at h
  obtain ⟨shared, ⟨main, hmain, hshared⟩, ⟨main', hmain', hshared'⟩⟩ := h
  obtain ⟨main'', hmain'', hplace⟩ := hpath
  cases hmain.symm.trans hmain''
  exact ⟨main', hmain', hshared'.trans (hshared.symm.trans hplace)⟩

/-- What is left of writing some texts: each can be read at its path and
stands at all places of the file to which that led, and apart from these
files all is as it was. -/
structure Written (before after : FileTree) (texts : List (String × String)) : Prop where
  kept : before.Kept after
  leads : ∀ path text, (path, text) ∈ texts → ∃ place, before.locate .write path = .ok place
  reads : ∀ path text, (path, text) ∈ texts → after.readText path = .ok text
  holds : ∀ path text place, (path, text) ∈ texts → before.Reaches path place →
    after.contentAt? place = some (.text text)
  rest : ∀ place, (∀ path text, (path, text) ∈ texts → ¬ before.Reaches path place) →
    after.contentAt? place = before.contentAt? place

theorem Written.nothing (tree : FileTree) : tree.Written tree [] where
  kept := .refl tree
  leads _ _ h := nomatch h
  reads _ _ h := nomatch h
  holds _ _ _ h := nomatch h
  rest _ _ := rfl

/-- One more write. It leaves texts in other files, and takes the place of
those in the same one. -/
theorem Written.write {before middle after : FileTree} {texts left : List (String × String)}
    {path text : String} (h : before.Written middle texts) (hwritable : before.Writable path)
    (hwrite : middle.writeText path text = .ok after)
    (hleft : ∀ written ∈ left, written ∈ texts ∧ before.Apart written.1 path)
    (hover : ∀ written ∈ texts, written ∈ left
      ∨ ∀ place, before.Reaches written.1 place → before.Reaches path place) :
    before.Written after (left ++ [(path, text)]) := by
  obtain ⟨main, hlocate, -⟩ := writable_iff.mp hwritable
  obtain ⟨main', hlocate', hwrites⟩ := writeText_eq_ok_iff.mp hwrite
  cases (h.kept.locate (.inl rfl) hlocate).symm.trans hlocate'
  have hkept : before.Kept after := h.kept.trans hwrites.kept
  have hreach {place : List String} : before.Reaches path place ↔ middle.Same main place := by
    rw [h.kept.same, Reaches, hlocate]
    simp
  have hleads : ∀ path' text', (path', text') ∈ left ++ [(path, text)] →
      ∃ place, before.locate .write path' = .ok place := by
    intro path' text' hmem
    rcases List.mem_append.mp hmem with hmem | hmem
    · exact h.leads _ _ (hleft _ hmem).1
    · cases List.mem_singleton.mp hmem
      exact ⟨main, hlocate⟩
  have hholds : ∀ path' text' place, (path', text') ∈ left ++ [(path, text)] →
      before.Reaches path' place → after.contentAt? place = some (.text text') := by
    intro path' text' place hmem hplace
    rcases List.mem_append.mp hmem with hmem | hmem
    · obtain ⟨htexts, hapart⟩ := hleft _ hmem
      rw [hwrites.contentAt?_of_not_same (mt hreach.mpr (hapart _ hplace))]
      exact h.holds _ _ _ htexts hplace
    · cases List.mem_singleton.mp hmem
      exact hwrites.contentAt?_of_same (hreach.mp hplace)
  refine ⟨hkept, hleads, fun path' text' hmem => ?_, hholds, fun place hplace => ?_⟩
  · obtain ⟨place, hplace⟩ := hleads _ _ hmem
    exact readText_eq_ok_iff.mpr ⟨place, hkept.locate (.inr rfl) hplace,
      hholds _ _ _ hmem ⟨place, hplace, .inl rfl⟩⟩
  · have hpath : ¬ before.Reaches path place :=
      hplace _ _ (List.mem_append_right _ (List.mem_singleton_self _))
    rw [hwrites.contentAt?_of_not_same (mt hreach.mpr hpath)]
    refine h.rest place fun path' text' htexts hreaches => ?_
    rcases hover _ htexts with hmem | hover
    · exact hplace _ _ (List.mem_append_left _ hmem) hreaches
    · exact hpath (hover place hreaches)

/-- The tree after some texts were written, one after the other. -/
def writeTexts (tree : FileTree) : List (String × String) → Except FileError FileTree
  | [] => .ok tree
  | (path, text) :: rest => (tree.writeText path text).bind fun after => after.writeTexts rest

theorem writeTexts_cons {tree after : FileTree} {path text : String}
    {rest : List (String × String)} :
    tree.writeTexts ((path, text) :: rest) = .ok after
      ↔ ∃ next, tree.writeText path text = .ok next ∧ next.writeTexts rest = .ok after := by
  rw [writeTexts]
  cases tree.writeText path text <;> simp [Except.bind]

/-- Texts can be written one after the other if each can be written at first. -/
theorem exists_writeTexts {tree : FileTree} {texts : List (String × String)}
    (h : ∀ text ∈ texts, tree.Writable text.1) : ∃ after, tree.writeTexts texts = .ok after := by
  induction texts generalizing tree with
  | nil => exact ⟨tree, rfl⟩
  | cons first rest ih =>
      obtain ⟨path, text⟩ := first
      obtain ⟨hpath, hrest⟩ := List.forall_mem_cons.mp h
      obtain ⟨next, hwrite⟩ := hpath text
      obtain ⟨place, -, hwrites⟩ := writeText_eq_ok_iff.mp hwrite
      obtain ⟨after, hafter⟩ := ih fun text' hmem => hwrites.kept.writable (hrest text' hmem)
      exact ⟨after, writeTexts_cons.mpr ⟨next, hwrite, hafter⟩⟩

theorem Written.writeTexts {before middle after : FileTree} {written texts : List (String × String)}
    (h : before.Written middle written) (hwritable : ∀ text ∈ texts, before.Writable text.1)
    (hwrite : middle.writeTexts texts = .ok after)
    (hapart : (written.map Prod.fst ++ texts.map Prod.fst).Pairwise before.Apart) :
    before.Written after (written ++ texts) := by
  induction texts generalizing middle written with
  | nil =>
      cases hwrite
      rwa [List.append_nil]
  | cons first rest ih =>
      obtain ⟨path, text⟩ := first
      obtain ⟨hpath, hrest⟩ := List.forall_mem_cons.mp hwritable
      obtain ⟨next, hnext, hafter⟩ := writeTexts_cons.mp hwrite
      have hhere : ∀ other ∈ written, other ∈ written ∧ before.Apart other.1 path :=
        fun other hmem => ⟨hmem, (List.pairwise_append.mp hapart).2.2 _
          (List.mem_map_of_mem hmem) _ List.mem_cons_self⟩
      have hothers : ((written ++ [(path, text)]).map Prod.fst
          ++ rest.map Prod.fst).Pairwise before.Apart := by
        rw [List.map_append, List.append_assoc]
        exact hapart
      have hall := ih (h.write hpath hnext hhere fun _ hmem => .inl hmem) hrest hafter hothers
      rwa [List.append_assoc] at hall

/-- Of two texts in one file the second is left. -/
theorem Written.of_not_apart {before after : FileTree} {path text other text' : String}
    (hpath : before.Writable path) (hother : before.Writable other)
    (hsame : ¬ before.Apart path other)
    (hwrite : before.writeTexts [(path, text), (other, text')] = .ok after) :
    before.Written after [(other, text')] := by
  obtain ⟨middle, hmiddle, hafter⟩ := writeTexts_cons.mp hwrite
  obtain ⟨after', hafter', hnil⟩ := writeTexts_cons.mp hafter
  cases hnil
  have hfirst : before.Written middle ([] ++ [(path, text)]) :=
    (Written.nothing before).write hpath hmiddle (by simp) (by simp)
  have hsecond : before.Written after ([] ++ [(other, text')]) := by
    refine hfirst.write hother hafter' (by simp) fun written hmem => ?_
    cases List.mem_singleton.mp hmem
    exact .inr fun place => reaches_of_not_apart hsame
  exact hsecond

end FileTree

end LineAsm
