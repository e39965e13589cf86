import LineAsm.Proofs.Listings
import LineAsm.Proofs.Marks

/-!
# Reading listings

Each format of a listing has a reader of its own. The hexadecimal reader
takes the mark off each line and reads the rest, the binary one reads
each line as it stands, and the reader of a memory initializer keeps the
lines of the cells, finds index and word in each of them by the marks
around them, and checks that the indices count up from zero.

All three give back the words that were written (`readers_render`). The
way there is the same for each: the lines of the listing are known, and
each line is read as the word it was written for, so the whole is
(`mapM_map_eq_some`).
-/

namespace LineAsm

namespace Listing

/-! ## Readers -/

/-- The word of a number without a sign. -/
def readWord? (radix : Nat) (digits : List Char) : Option Word :=
  (Literal.readUnsigned radix digits).toOption.map (BitVec.ofNat 32)

def readHexLine? (line : List Char) : Option Word :=
  readWord? 16 (Text.dropMarks "0x".toList line)

/-- A line has to have 32 digits. -/
def readBinLine? (line : List Char) : Option Word :=
  if line.length = 32 then readWord? 2 line else none

/-- Is the line one of a cell, and not of the cells that are left over? -/
def isCell (line : List Char) : Bool :=
  (Text.cutAt? "=> x\"".toList line).isSome && !(Text.cutAt? "others".toList line).isSome

/-- An index has no bound: an optional plus, then digits. -/
def readIndex? (text : List Char) : Option Nat :=
  let digits := match text with
    | '+' :: digits => digits
    | digits => digits
  if digits ≠ [] ∧ digits.all fun c => (Literal.digitValue? 10 c).isSome then
    some (Literal.digitsValue 10 0 digits)
  else none

/-- The word of a cell, which has to have the index and eight digits. -/
def readCell? (index : Nat) (line : List Char) : Option Word := do
  let (number, rest) ← Text.cutAt? " => x\"".toList (Text.trim line)
  let digits := Text.dropLastMarks "\",".toList rest
  if readIndex? number = some index ∧ digits.length = 8 then readWord? 16 digits else none

def readHex? (text : String) : Option (List Word) :=
  (Text.splitLines text.toList).mapM readHexLine?

def readBin? (text : String) : Option (List Word) :=
  (Text.splitLines text.toList).mapM readBinLine?

/-- The cells are counted from zero. -/
def readVhdl? (text : String) : Option (List Word) :=
  ((Text.splitLines text.toList).filter isCell).zipIdx.mapM fun cell =>
    readCell? cell.2 cell.1

/-! ## Digits -/

theorem readWord?_leftpad {radix : Nat} (hradix : 1 < radix) (hle : radix ≤ 16) (width : Nat)
    (w : Word) : readWord? radix ((Nat.toDigits radix w.toNat).leftpad width '0') = some w := by
  have hword : BitVec.ofNat 32 w.toNat = w := by
    rw [BitVec.ofNat_toNat, BitVec.setWidth_eq]
  rw [readWord?, Literal.readUnsigned_leftpad hradix hle w.isLt]
  exact congrArg some hword

theorem isDigits_hexDigits (w : Word) : Literal.IsDigits 16 w.hexDigits :=
  Literal.isDigits_toDigits (by decide) w.toNat

theorem isDigits_paddedHexDigits (w : Word) : Literal.IsDigits 16 w.paddedHexDigits :=
  Literal.isDigits_leftpad (by decide) 8 w.toNat

theorem isDigits_paddedBinaryDigits (w : Word) : Literal.IsDigits 2 w.paddedBinaryDigits :=
  Literal.isDigits_leftpad (by decide) 32 w.toNat

theorem isDigits_index (index : Nat) : Literal.IsDigits 10 (Nat.toDigits 10 index) :=
  Literal.isDigits_toDigits (by decide) index

theorem length_paddedHexDigits (w : Word) : w.paddedHexDigits.length = 8 :=
  Literal.length_leftpad_toDigits (by decide) (by decide) w.isLt

theorem length_paddedBinaryDigits (w : Word) : w.paddedBinaryDigits.length = 32 :=
  Literal.length_leftpad_toDigits (by decide) (by decide) w.isLt

/-- A character that is no digit does not stand among digits. -/
theorem not_mem_of_isDigits {radix : Nat} (hle : radix ≤ 16) {text : List Char}
    (h : Literal.IsDigits radix text) {c : Char} (hc : ∀ d : Fin 16, Nat.digitChar d.val ≠ c) :
    c ∉ text := by
  intro hmem
  obtain ⟨d, hd, rfl⟩ := h c hmem
  exact hc ⟨d, by omega⟩ rfl

theorem not_blank_of_isDigits {radix : Nat} (hle : radix ≤ 16) {text : List Char}
    (h : Literal.IsDigits radix text) : ∀ c ∈ text, Text.isBlank c = false := by
  have hdigit : ∀ d : Fin 16, Text.isBlank (Nat.digitChar d.val) = false := by decide
  intro c hc
  obtain ⟨d, hd, rfl⟩ := h c hc
  exact hdigit ⟨d, by omega⟩

theorem readIndex?_toDigits (index : Nat) : readIndex? (Nat.toDigits 10 index) = some index := by
  have hplus : '+' ∉ Nat.toDigits 10 index :=
    not_mem_of_isDigits (by decide) (isDigits_index index) (by decide)
  have hdigits : (Nat.toDigits 10 index).all fun c => (Literal.digitValue? 10 c).isSome := by
    rw [List.all_eq_true]
    intro c hc
    obtain ⟨d, hd, rfl⟩ := isDigits_index index c hc
    rw [Literal.digitValue?_digitChar (by decide) hd]
    rfl
  have hvalue : Literal.digitsValue 10 0 (Nat.toDigits 10 index) = index :=
    Literal.digitsValue_toDigits (by decide) (by decide) index
  unfold readIndex?
  split
  · rename_i digits htext
    exact absurd (htext ▸ List.mem_cons_self ..) hplus
  · simp only [hvalue]
    exact if_pos ⟨Nat.toDigits_ne_nil, hdigits⟩

/-! ## Lines -/

theorem readHexLine?_hexLine (w : Word) : readHexLine? (hexLine w) = some w := by
  have hline : hexLine w = "0x".toList ++ w.hexDigits := rfl
  have hmark : ¬ "0x".toList <+: w.hexDigits := fun h =>
    not_mem_of_isDigits (Nat.le_refl 16) (isDigits_hexDigits w) (by decide)
      (h.subset (by decide : 'x' ∈ "0x".toList))
  have hunpadded : w.hexDigits = (Nat.toDigits 16 w.toNat).leftpad 0 '0' := by
    rw [List.leftpad, Nat.zero_sub]
    rfl
  rw [readHexLine?, hline, Text.dropMarks_append (by decide),
    Text.dropMarks_of_not_prefix hmark, hunpadded]
  exact readWord?_leftpad (by decide) (by decide) 0 w

theorem readBinLine?_binLine (w : Word) : readBinLine? (binLine w) = some w := by
  have hlength : (binLine w).length = 32 := length_paddedBinaryDigits w
  rw [readBinLine?, if_pos hlength]
  exact readWord?_leftpad (by decide) (by decide) 32 w

theorem vhdlLine_eq (index : Nat) (w : Word) :
    vhdlLine index w
      = "  ".toList ++ (Nat.toDigits 10 index ++ " => x\"".toList
          ++ (w.paddedHexDigits ++ "\",".toList)) := by
  have hassoc : ∀ a b c d e : List Char, a ++ b ++ c ++ d ++ e = a ++ (b ++ c ++ (d ++ e)) := by
    simp
  exact hassoc ..

theorem trim_vhdlLine (index : Nat) (w : Word) :
    Text.trim (vhdlLine index w)
      = Nat.toDigits 10 index ++ " => x\"".toList ++ (w.paddedHexDigits ++ "\",".toList) := by
  have hindex : ∀ c ∈ Nat.toDigits 10 index, Text.isBlank c = false :=
    not_blank_of_isDigits (by decide) (isDigits_index index)
  have hfirst : ∀ {rest : List Char} c, (Nat.toDigits 10 index ++ rest).head? = some c →
      Text.isBlank c = false := by
    intro rest c hc
    rw [List.head?_append_of_ne_nil _ Nat.toDigits_ne_nil] at hc
    exact hindex c (List.mem_of_head? hc)
  have hlast : ∀ {rest : List Char} c, (rest ++ "\",".toList).getLast? = some c →
      Text.isBlank c = false := by
    intro rest c hc
    rw [List.getLast?_append] at hc
    obtain rfl := Option.some.inj hc
    decide
  rw [vhdlLine_eq]
  refine Text.trim_append (List.all_eq_true.mp rfl) (fun c hc => ?_) fun c hc => ?_
  · rw [List.append_assoc] at hc
    exact hfirst c hc
  · rw [← List.append_assoc] at hc
    exact hlast c hc

theorem readCell?_vhdlLine (index : Nat) (w : Word) :
    readCell? index (vhdlLine index w) = some w := by
  have hblank : ' ' ∉ Nat.toDigits 10 index :=
    not_mem_of_isDigits (by decide) (isDigits_index index) (by decide)
  have hcut : Text.cutAt? " => x\"".toList (Text.trim (vhdlLine index w))
      = some (Nat.toDigits 10 index, w.paddedHexDigits ++ "\",".toList) := by
    rw [trim_vhdlLine]
    exact Text.cutAt?_append hblank "=> x\"".toList _
  have hmark : ¬ "\",".toList <:+ w.paddedHexDigits := fun h =>
    not_mem_of_isDigits (Nat.le_refl 16) (isDigits_paddedHexDigits w) (by decide)
      (h.subset (by decide : ',' ∈ "\",".toList))
  rw [readCell?, hcut]
  simp only [bind, Option.bind, Text.dropLastMarks_append (by decide : "\",".toList ≠ []) hmark,
    readIndex?_toDigits, length_paddedHexDigits, and_self, if_true]
  exact readWord?_leftpad (by decide) (by decide) 8 w

theorem isCell_vhdlLine (index : Nat) (w : Word) : isCell (vhdlLine index w) = true := by
  have hassoc : ∀ a b c d e : List Char, a ++ b ++ c ++ d ++ e = a ++ (b ++ (c ++ d) ++ e) := by
    simp
  have hcell : "=> x\"".toList <:+: vhdlLine index w :=
    ⟨"  ".toList ++ Nat.toDigits 10 index ++ [' '], w.paddedHexDigits ++ "\",".toList,
      (hassoc ..).trans (vhdlLine_eq index w).symm⟩
  have hother : 'o' ∉ vhdlLine index w := by
    have hindex : 'o' ∉ Nat.toDigits 10 index :=
      not_mem_of_isDigits (by decide) (isDigits_index index) (by decide)
    have hdigits : 'o' ∉ w.paddedHexDigits :=
      not_mem_of_isDigits (Nat.le_refl 16) (isDigits_paddedHexDigits w) (by decide)
    rw [vhdlLine_eq]
    simp only [List.mem_append, not_or]
    exact ⟨by decide, ⟨hindex, by decide⟩, hdigits, by decide⟩
  have hothers : (Text.cutAt? "others".toList (vhdlLine index w)).isSome = false := by
    rw [← Bool.not_eq_true, Text.isSome_cutAt?_iff]
    exact fun h => hother (h.subset (by decide : 'o' ∈ "others".toList))
  rw [isCell, Text.isSome_cutAt?_iff.mpr hcell, hothers]
  rfl

/-! ## Whole listings -/

theorem unbroken_of_isDigits {radix : Nat} (hle : radix ≤ 16) {text : List Char}
    (h : Literal.IsDigits radix text) : Text.Unbroken text :=
  Text.unbroken_of_not_blank (not_blank_of_isDigits hle h)

theorem splitLines_render_bin (words : List Word) :
    Text.splitLines (render .bin words).toList = words.map binLine := by
  have hunbroken : ∀ text ∈ words.map binLine, Text.Unbroken text := by
    intro text htext
    obtain ⟨w, -, rfl⟩ := List.mem_map.mp htext
    exact unbroken_of_isDigits (by decide) (isDigits_paddedBinaryDigits w)
  rw [render, String.toList_ofList, splitLines_joinLines hunbroken]

/-- The lines of the preamble. -/
def vhdlHead : List (List Char) := ["signal program : PROGRAM_MEMORY := ".toList, "  ( ".toList]

/-- The lines of the postamble. -/
def vhdlFoot : List (List Char) := ["  others => x\"00000000\" ".toList, "  ); ".toList]

theorem toList_render_vhdl (words : List Word) :
    (render .vhdl words).toList
      = joinLines (vhdlHead ++ words.mapIdx vhdlLine ++ vhdlFoot) := by
  have hhead : vhdlPreamble.toList = joinLines vhdlHead := by
    simp [vhdlPreamble, vhdlHead, joinLines]
  have hfoot : vhdlPostamble.toList = joinLines vhdlFoot := by
    simp [vhdlPostamble, vhdlFoot, joinLines]
  rw [render, String.toList_append, String.toList_append, String.toList_ofList, hhead, hfoot]
  simp only [joinLines, List.flatMap_append]

theorem unbroken_vhdlLine (index : Nat) (w : Word) : Text.Unbroken (vhdlLine index w) := by
  have hindex : Text.Unbroken (Nat.toDigits 10 index) :=
    unbroken_of_isDigits (by decide) (isDigits_index index)
  have hdigits : Text.Unbroken w.paddedHexDigits :=
    unbroken_of_isDigits (Nat.le_refl 16) (isDigits_paddedHexDigits w)
  rw [vhdlLine_eq]
  simp only [Text.unbroken_append]
  exact ⟨by decide, ⟨hindex, by decide⟩, hdigits, by decide⟩

theorem splitLines_render_vhdl (words : List Word) :
    Text.splitLines (render .vhdl words).toList
      = vhdlHead ++ words.mapIdx vhdlLine ++ vhdlFoot := by
  have hcells : ∀ text ∈ words.mapIdx vhdlLine, Text.Unbroken text := by
    intro text htext
    obtain ⟨index, hindex, rfl⟩ := List.mem_mapIdx.mp htext
    exact unbroken_vhdlLine index words[index]
  rw [toList_render_vhdl, splitLines_joinLines]
  exact List.forall_mem_append.mpr ⟨List.forall_mem_append.mpr ⟨by decide, hcells⟩, by decide⟩

/-- Of the lines of an initializer, those of the cells are kept. -/
theorem filter_isCell_render (words : List Word) :
    (Text.splitLines (render .vhdl words).toList).filter isCell = words.mapIdx vhdlLine := by
  have hcells : (words.mapIdx vhdlLine).filter isCell = words.mapIdx vhdlLine := by
    rw [List.filter_eq_self]
    intro text htext
    obtain ⟨index, _, rfl⟩ := List.mem_mapIdx.mp htext
    exact isCell_vhdlLine ..
  have hhead : vhdlHead.filter isCell = [] := by decide
  have hfoot : vhdlFoot.filter isCell = [] := by decide
  rw [splitLines_render_vhdl, List.filter_append, List.filter_append, hhead, hfoot, hcells,
    List.nil_append, List.append_nil]

/-- Reading undoes writing if it does so line by line. -/
theorem mapM_map_eq_some {α β γ : Type} {f : α → β} {g : β → Option γ} {v : α → γ}
    (h : ∀ a, g (f a) = some (v a)) (items : List α) :
    (items.map f).mapM g = some (items.map v) := by
  induction items with
  | nil => rfl
  | cons a items ih =>
      rw [List.map_cons, List.mapM_cons, h, ih]
      rfl

theorem readHex?_render (words : List Word) : readHex? (render .hex words) = some words := by
  rw [readHex?, splitLines_render_hex, mapM_map_eq_some (v := id) readHexLine?_hexLine,
    List.map_id]

theorem readBin?_render (words : List Word) : readBin? (render .bin words) = some words := by
  rw [readBin?, splitLines_render_bin, mapM_map_eq_some (v := id) readBinLine?_binLine,
    List.map_id]

theorem readVhdl?_render (words : List Word) : readVhdl? (render .vhdl words) = some words := by
  have hcells : (words.mapIdx vhdlLine).zipIdx
      = words.zipIdx.map fun cell => (vhdlLine cell.2 cell.1, cell.2) := by
    apply List.ext_getElem?
    intro i
    rw [List.getElem?_zipIdx, List.getElem?_mapIdx, List.getElem?_map, List.getElem?_zipIdx]
    cases words[i]? with
    | none => rfl
    | some w => simp
  rw [readVhdl?, filter_isCell_render, hcells, mapM_map_eq_some (v := Prod.fst),
    List.zipIdx_map_fst]
  intro cell
  exact readCell?_vhdlLine cell.2 cell.1

/-! ## The form of the lines -/

theorem binary_of_mem_binLine (w : Word) : ∀ c ∈ binLine w, c = '0' ∨ c = '1' := by
  intro c hc
  obtain ⟨d, hd, rfl⟩ := isDigits_paddedBinaryDigits w c hc
  have hdigit : ∀ d : Fin 2, Nat.digitChar d.val = '0' ∨ Nat.digitChar d.val = '1' := by decide
  exact hdigit ⟨d, hd⟩

/-- A digit of a hexadecimal number in lower case. -/
def IsLowerHex (c : Char) : Prop := '0' ≤ c ∧ c ≤ '9' ∨ 'a' ≤ c ∧ c ≤ 'f'

instance (c : Char) : Decidable (IsLowerHex c) := inferInstanceAs (Decidable (_ ∨ _))

theorem isLowerHex_of_isDigits {text : List Char} (h : Literal.IsDigits 16 text) :
    ∀ c ∈ text, IsLowerHex c := by
  intro c hc
  obtain ⟨d, hd, rfl⟩ := h c hc
  have hdigit : ∀ d : Fin 16, IsLowerHex (Nat.digitChar d.val) := by decide
  exact hdigit ⟨d, hd⟩

/-- A number in as few digits as it needs starts with a zero only if it is
zero. -/
theorem hexDigits_of_head?_zero {w : Word} (h : w.hexDigits.head? = some '0') :
    w.hexDigits = ['0'] := by
  have hzero : w.toNat = 0 := Literal.eq_zero_of_head?_toDigits (by decide) (by decide) h
  rw [Word.hexDigits, hzero, Nat.toDigits_zero]

/-- The text of one cell, with its line ending. -/
def cellText (index : Nat) (digits : String) : String :=
  "  " ++ index.repr ++ " => x\"" ++ digits ++ "\",\n"

theorem toList_cellText (index : Nat) (w : Word) :
    (cellText index (String.ofList w.paddedHexDigits)).toList = vhdlLine index w ++ ['\n'] := by
  have happend : ∀ a b c d e : String, (a ++ b ++ c ++ d ++ e).toList
      = a.toList ++ b.toList ++ c.toList ++ d.toList ++ e.toList := by
    simp
  have hclose : "\",\n".toList = "\",".toList ++ ['\n'] := rfl
  have hdigits : (String.ofList w.paddedHexDigits).toList = w.paddedHexDigits :=
    String.toList_ofList
  have hindex : index.repr.toList = Nat.toDigits 10 index := Nat.toList_repr
  rw [cellText, happend, hdigits, hindex, hclose]
  exact (List.append_assoc ..).symm

theorem render_vhdl (words : List Word) :
    render .vhdl words
      = vhdlPreamble
        ++ String.join ((words.map fun w => String.ofList w.paddedHexDigits).mapIdx cellText)
        ++ vhdlPostamble := by
  have hcells : (words.mapIdx vhdlLine).map (· ++ ['\n'])
      = ((words.map fun w => String.ofList w.paddedHexDigits).mapIdx cellText).map
          String.toList := by
    apply List.ext_getElem?
    intro i
    rw [List.getElem?_map, List.getElem?_mapIdx, List.getElem?_map, List.getElem?_mapIdx,
      List.getElem?_map]
    cases words[i]? with
    | none => rfl
    | some w => exact congrArg some (toList_cellText i w).symm
  have hjoin : String.ofList (joinLines (words.mapIdx vhdlLine))
      = String.join ((words.map fun w => String.ofList w.paddedHexDigits).mapIdx cellText) := by
    rw [← String.toList_inj, String.toList_ofList, String.toList_join, joinLines,
      List.flatMap_def, List.flatMap_def, hcells]
  rw [render, hjoin]

/-- **Listings are lossless.** Each reader gives back the words that its
format was written for. Besides, a binary line has 32 binary digits, a
hexadecimal one has no zero in front that it could do without, and an
initializer is made of its frame and of one cell for each word, with the
indices counting up from zero and eight digits in lower case. -/
theorem readers_render (words : List Word) :
    readHex? (render .hex words) = some words
    ∧ readBin? (render .bin words) = some words
    ∧ readVhdl? (render .vhdl words) = some words
    ∧ (∀ line ∈ Text.splitLines (render .bin words).toList,
      line.length = 32 ∧ ∀ c ∈ line, c = '0' ∨ c = '1')
    ∧ (∀ line ∈ Text.splitLines (render .hex words).toList,
      ∃ digits, line = "0x".toList ++ digits ∧ digits ≠ []
        ∧ (digits.head? = some '0' → digits = ['0']))
    ∧ ∃ digits : List String, digits.length = words.length
      ∧ (∀ text ∈ digits, text.length = 8 ∧ ∀ c ∈ text.toList, IsLowerHex c)
      ∧ render .vhdl words
        = vhdlPreamble ++ String.join (digits.mapIdx cellText) ++ vhdlPostamble := by
  refine ⟨readHex?_render words, readBin?_render words, readVhdl?_render words,
    fun line hline => ?_, fun line hline => ?_,
    ⟨words.map fun w => String.ofList w.paddedHexDigits, List.length_map _, fun text htext => ?_,
      ?_⟩⟩
  · rw [splitLines_render_bin] at hline
    obtain ⟨w, -, rfl⟩ := List.mem_map.mp hline
    exact ⟨length_paddedBinaryDigits w, binary_of_mem_binLine w⟩
  · rw [splitLines_render_hex] at hline
    obtain ⟨w, -, rfl⟩ := List.mem_map.mp hline
    exact ⟨w.hexDigits, rfl, Nat.toDigits_ne_nil, hexDigits_of_head?_zero⟩
  · obtain ⟨w, -, rfl⟩ := List.mem_map.mp htext
    rw [String.length_ofList, String.toList_ofList]
    exact ⟨length_paddedHexDigits w, isLowerHex_of_isDigits (isDigits_paddedHexDigits w)⟩
  · rw [render_vhdl]

end Listing

end LineAsm
