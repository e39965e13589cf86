import LineAsm.Proofs.Assembling
import LineAsm.Proofs.DigitTexts
import LineAsm.Proofs.Modes
import LineAsm.Proofs.Tokens

/-!
# Listings as sources

A hexadecimal listing turns into a source when each of its lines becomes
the literal of a directive, and assembling this source gives the words
back (`assemble_listing`). The same holds for decimal directives, where
each word may be written as its unsigned or as its signed value.

The steps are those of the way through the assembler: the source falls
into the lines that were written (`lines_intercalate`), each line into
its marker and its literal (`tokenize_joinTokens`), and the literal is
read as the word that it was written for. None of them depends on the
revision or the mode, because only instructions do.
-/

namespace LineAsm

/-! ## Digits and markers are plain -/

theorem plainText_toDigits {radix : Nat} (hradix : 1 < radix) (hle : radix ≤ 16) (n : Nat) :
    PlainText (Nat.toDigits radix n) := by
  have hdigit : ∀ d : Fin 16,
      Nat.digitChar d.val ≠ delimiter ∧ Text.isBlank (Nat.digitChar d.val) = false := by decide
  intro c hc
  obtain ⟨d, hd, rfl⟩ := Literal.isDigits_toDigits hradix n c hc
  exact hdigit ⟨d, by omega⟩

theorem plainText_hexLine (w : Word) : PlainText (Listing.hexLine w) := by
  have hdigits : PlainText w.hexDigits := plainText_toDigits (by decide) (by decide) _
  exact plainText_cons.mpr ⟨by decide, plainText_cons.mpr ⟨by decide, hdigits⟩⟩

theorem plainText_repr (v : Int) : PlainText v.repr.toList := by
  have hdigits : ∀ n, PlainText (Nat.toDigits 10 n) :=
    plainText_toDigits (by decide) (by decide)
  cases v with
  | ofNat n =>
      rw [Int.repr, Nat.toList_repr]
      exact hdigits n
  | negSucc n =>
      rw [Int.repr, String.toList_append, Nat.toList_repr]
      exact plainText_cons.mpr ⟨by decide, hdigits _⟩

theorem plainText_marker {head : String} {kind : Directive.Kind}
    (h : Directive.Kind.ofMarker? head = some kind) : PlainText head.toList := by
  have hpair : ∀ c : Char, (c ≠ delimiter ∧ Text.isBlank c = false) → PlainText ['d', c] :=
    fun c hc => plainText_cons.mpr ⟨by decide, plainText_cons.mpr ⟨hc, plainText_nil⟩⟩
  unfold Directive.Kind.ofMarker? at h
  split at h
  · exact hpair 'i' (by decide)
  · exact hpair 'h' (by decide)
  · exact hpair 'f' (by decide)
  · cases h

theorem plainText_directive {head literal : String} {kind : Directive.Kind}
    (hmarker : Directive.Kind.ofMarker? head = some kind) (hliteral : PlainText literal.toList) :
    ∀ token ∈ [head, literal], PlainText token.toList :=
  List.forall_mem_cons.mpr ⟨plainText_marker hmarker, List.forall_mem_singleton.mpr hliteral⟩

/-! ## Lines of directives -/

namespace Encoder

theorem encodeTokens_directive {encoder : Encoder} {head literal : String}
    {kind : Directive.Kind} {w : Word} (hmarker : Directive.Kind.ofMarker? head = some kind)
    (h : Directive.readLiteral kind literal.toList = .ok w) :
    encoder.encodeTokens [head, literal] = .ok ⟨w, []⟩ := by
  have hread : Line.finding encoder.revision.isa [head, literal]
      = ⟨.ok (.directive ⟨kind, w⟩), []⟩ := by
    simp only [Line.finding, hmarker, h]
    rfl
  rw [encodeTokens_eq, hread, Finding.encoded_eq_ok]
  exact ⟨rfl, fun _ => rfl⟩

/-- A line that is a marker, a comma and a literal. -/
theorem encodeLine_directive {encoder : Encoder} {head literal : String}
    {kind : Directive.Kind} {w : Word} (hmarker : Directive.Kind.ofMarker? head = some kind)
    (hliteral : PlainText literal.toList)
    (h : Directive.readLiteral kind literal.toList = .ok w) :
    encoder.encodeLine (head ++ "," ++ literal) = .ok ⟨w, []⟩ := by
  have hplain := plainText_directive hmarker hliteral
  rw [encodeLine, ← joinTokens_pair, tokenize_joinTokens (List.cons_ne_nil _ _) hplain,
    encodeTokens_directive hmarker h]

theorem contributions_of_clean {encoder : Encoder} {line : Nat} {texts : List String}
    {words : List Word}
    (h : texts.map encoder.encodeLine = words.map fun w => .ok ⟨w, []⟩) :
    encoder.contributions line texts = ⟨words, []⟩ := by
  induction texts generalizing line words with
  | nil =>
      obtain rfl : words = [] := by simpa using h.symm
      rfl
  | cons text rest ih =>
      cases words with
      | nil => cases h
      | cons w words =>
          obtain ⟨hfirst, hrest⟩ := List.cons.inj h
          rw [contributions_cons, ih hrest, lineWord, lineDiagnostics, hfirst]
          rfl

/-- Lines that encode without a warning give their words. -/
theorem assemble_of_clean {encoder : Encoder} {texts : List String} {words : List Word}
    (hlines : ∀ text ∈ texts, Text.Unbroken text.toList ∧ text ≠ "")
    (h : texts.map encoder.encodeLine = words.map fun w => .ok ⟨w, []⟩) (policy : Policy) :
    encoder.assemble policy ("\n".intercalate texts) = .ok ⟨words, []⟩ := by
  have hall : ∀ text ∈ texts, ∃ encoded, encoder.encodeLine text = .ok encoded := by
    intro text htext
    have hmem : encoder.encodeLine text ∈ texts.map encoder.encodeLine :=
      List.mem_map.mpr ⟨text, htext, rfl⟩
    rw [h] at hmem
    obtain ⟨w, -, hw⟩ := List.mem_map.mp hmem
    exact ⟨_, hw.symm⟩
  rw [assemble, assembleLogged, Text.lines_intercalate hlines,
    assembleLines_of_encoded hall policy 1, contributions_of_clean h]

end Encoder

/-! ## Sources of directives -/

theorem unbroken_directive {head literal : String} {kind : Directive.Kind}
    (hmarker : Directive.Kind.ofMarker? head = some kind) (hliteral : PlainText literal.toList) :
    Text.Unbroken (head ++ "," ++ literal).toList ∧ head ++ "," ++ literal ≠ "" := by
  constructor
  · rw [← joinTokens_pair]
    have hplain := plainText_directive hmarker hliteral
    exact Text.unbroken_of_not_blank (not_blank_of_mem_joinTokens hplain)
  · intro hempty
    have hlist := congrArg String.toList hempty
    simp at hlist

theorem Listing.splitLines_joinLines {texts : List (List Char)}
    (h : ∀ text ∈ texts, Text.Unbroken text) : Text.splitLines (joinLines texts) = texts :=
  Text.splitLines_flatMap h

theorem Listing.splitLines_render_hex (words : List Word) :
    Text.splitLines (render .hex words).toList = words.map hexLine := by
  have hunbroken : ∀ text ∈ words.map hexLine, Text.Unbroken text := by
    intro text htext
    obtain ⟨w, -, rfl⟩ := List.mem_map.mp htext
    exact Text.unbroken_of_not_blank fun c hc => (plainText_hexLine w c hc).2
  rw [render, String.toList_ofList, splitLines_joinLines hunbroken]

theorem lines_render_hex (words : List Word) :
    Text.lines (Listing.render .hex words)
      = words.map fun w => String.ofList (Listing.hexLine w) := by
  rw [Text.lines, Listing.splitLines_render_hex, List.map_map]
  rfl

/-- A source of directives of one kind, whose literals may be spelled
differently from line to line. -/
theorem Encoder.assemble_directives {encoder : Encoder} {head : String} {kind : Directive.Kind}
    (hmarker : Directive.Kind.ofMarker? head = some kind) (spell : Nat → Word → String)
    (hliteral : ∀ i w, PlainText (spell i w).toList)
    (hread : ∀ i w, Directive.readLiteral kind (spell i w).toList = .ok w) (policy : Policy)
    (words : List Word) :
    encoder.assemble policy
        ("\n".intercalate (words.mapIdx fun i w => head ++ "," ++ spell i w))
      = .ok ⟨words, []⟩ := by
  refine assemble_of_clean (fun text htext => ?_) ?_ policy
  · obtain ⟨i, hi, rfl⟩ := List.mem_mapIdx.mp htext
    exact unbroken_directive hmarker (hliteral _ _)
  · apply List.ext_getElem?
    intro i
    rw [List.getElem?_map, List.getElem?_mapIdx, List.getElem?_map]
    cases words[i]? with
    | none => rfl
    | some w => exact congrArg some (encodeLine_directive hmarker (hliteral i w) (hread i w))

/-- **Listings can be assembled back**, under every revision, mode and
policy: a hexadecimal listing, and decimal values, where each word is
written as a signed or an unsigned number, as one likes. -/
theorem Encoder.assemble_listing (encoder : Encoder) (policy : Policy) (words : List Word) :
    encoder.assemble policy
        ("\n".intercalate ((Text.lines (Listing.render .hex words)).map ("dh," ++ ·)))
      = .ok ⟨words, []⟩
    ∧ ∀ signed : Nat → Bool,
      encoder.assemble policy ("\n".intercalate (words.mapIdx fun i w =>
          "di," ++ if signed i then w.toInt.repr else w.toNat.repr))
        = .ok ⟨words, []⟩ := by
  constructor
  · have hlines : (Text.lines (Listing.render .hex words)).map ("dh," ++ ·)
        = words.mapIdx fun _ w => "dh" ++ "," ++ String.ofList (Listing.hexLine w) := by
      rw [lines_render_hex]
      apply List.ext_getElem?
      intro i
      simp [Function.comp_def]
    rw [hlines]
    refine assemble_directives rfl (fun _ w => String.ofList (Listing.hexLine w))
      (fun i w => ?_) (fun i w => ?_) policy words
    · rw [String.toList_ofList]
      exact plainText_hexLine w
    · rw [String.toList_ofList]
      exact Directive.readHex_hexLine w
  · intro signed
    simp only [show ("di," : String) = "di" ++ "," from rfl]
    refine assemble_directives rfl
      (fun i w => if signed i then w.toInt.repr else w.toNat.repr)
      (fun i w => ?_) (fun i w => ?_) policy words
    · cases signed i with
      | true => exact plainText_repr w.toInt
      | false => exact plainText_repr w.toNat
    · cases signed i with
      | true => exact Directive.readDecimal_toInt w
      | false => exact Directive.readDecimal_toNat w

end LineAsm
