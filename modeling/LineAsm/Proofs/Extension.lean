import LineAsm.Proofs.SlotReading
import LineAsm.Proofs.Truncation

/-!
# Lines that go on after a failure

A line that fails keeps failing when tokens are added to it, with the
same error and the same warnings (`Line.failure_stable`). So the
prefixes of a line fall into two parts: the short ones encode, and from
some length on all of them fail alike.

The relation behind this is `Finding.ExtendedBy`: a longer line may add
warnings after those of the shorter one, but nothing at all once the
shorter one has failed. It is closed under sequencing, since two
readings that start alike differ only in what comes later
(`extendedBy_bind`), and a slot without a token ends the shorter line
with nothing to be kept. So it goes along the slots of a line without
any appeal to their order (`values_extendedBy`), and every sink sees it
as an error that stays (`ExtendedBy.onSink`).

The order of the slots comes in where the failure is located: one more
token is read by one slot, and a slot that fails has not warned
(`values_succ_warnings`). The warnings of a line that fails are
therefore those of the tokens before the one that it fails at
(`Line.exists_failing_token`).
-/

namespace LineAsm

variable {α β : Type}

/-! ## Findings that go on -/

namespace Finding

/-- The second finding goes on where the first one ends: it keeps the
warnings, and if the first one fails there is nothing to go on with. -/
structure ExtendedBy (o o' : Finding α) : Prop where
  warnings : o.warnings <+: o'.warnings
  failure : ∀ m, o.result = .error m → o' = o

theorem map_eq_error {o : Finding α} {f : α → β} {m : Misreading} {ws : List Warning} :
    o.map f = ⟨.error m, ws⟩ ↔ o = ⟨.error m, ws⟩ := by
  obtain ⟨result, ws'⟩ := o
  cases result <;> simp [Finding.map, Except.map]

theorem extendedBy_refl (o : Finding α) : o.ExtendedBy o :=
  ⟨List.prefix_refl _, fun _ _ => rfl⟩

/-- Anything may follow a finding without a failure and a warning. -/
theorem pure_extendedBy (a : α) (o : Finding α) : (Finding.pure a).ExtendedBy o :=
  ⟨List.nil_prefix, fun _ h => nomatch h⟩

theorem extendedBy_bind (o : Finding α) {f g : α → Finding β}
    (h : ∀ a, (f a).ExtendedBy (g a)) : (o.bind f).ExtendedBy (o.bind g) := by
  obtain ⟨result, ws⟩ := o
  cases result with
  | error m => exact extendedBy_refl _
  | ok a =>
      refine ⟨(List.prefix_append_right_inj ws).mpr (h a).warnings, fun m hm => ?_⟩
      rw [bind_mk_ok, bind_mk_ok, (h a).failure m hm]

theorem ExtendedBy.map {o o' : Finding α} (h : o.ExtendedBy o') (f : α → β) :
    (o.map f).ExtendedBy (o'.map f) :=
  ⟨h.warnings, fun m hm => by rw [h.failure m (map_result_eq_error.mp hm)]⟩

/-- On every sink, an error stays what it is, and so does the sink. -/
theorem ExtendedBy.onSink {o o' : Finding α} (h : o.ExtendedBy o') {sink after : Sink}
    {e : EncodeError} (hfails : o.onSink sink = (.error e, after)) :
    o'.onSink sink = (.error e, after) := by
  -- A misreading leaves nothing to add, so only a rejected warning is left to look at.
  by_cases hresult : ∃ m, o.result = .error m
  · obtain ⟨m, hm⟩ := hresult
    rw [h.failure m hm]
    exact hfails
  obtain ⟨mode, noted⟩ := sink
  obtain ⟨result, ws⟩ := o
  obtain ⟨result', ws'⟩ := o'
  cases result with
  | error m => exact absurd ⟨m, rfl⟩ hresult
  | ok a =>
      cases mode with
      | lenient => cases hfails
      | strict =>
          cases ws with
          | nil => cases hfails
          | cons warning rest =>
              obtain ⟨more, rfl⟩ := h.warnings
              exact hfails

end Finding

/-! ## Instructions -/

namespace Instruction

theorem values_extendedBy (isa : Isa) (kind : OpClass) {tokens more : List String}
    (h : tokens <+: more) : ∀ slots : List (Part × Slot),
      (values isa kind tokens slots).ExtendedBy (values isa kind more slots)
  | [] => Finding.extendedBy_refl _
  | (part, slot) :: rest => by
      cases htoken : tokens[slot.token]? with
      | none =>
          rw [values_cons_none htoken]
          exact Finding.pure_extendedBy _ _
      | some token =>
          have hmore : more[slot.token]? = some token := by
            obtain ⟨suffix, rfl⟩ := h
            obtain ⟨hlt, -⟩ := List.getElem?_eq_some_iff.mp htoken
            rw [List.getElem?_append_left hlt, htoken]
          rw [values_cons_some htoken, values_cons_some hmore]
          exact Finding.extendedBy_bind _ fun v => (values_extendedBy isa kind h rest).map _

/-- A line cut after at least two tokens may be read under the class and
with the shape of the whole line. -/
theorem values_cut (isa : Isa) (tokens : List String) {k : Nat} (hk : 2 ≤ k) :
    values isa (classOf (tokens.take k)) (tokens.take k) (shapeOf isa (tokens.take k))
      = values isa (classOf tokens) (tokens.take k) (shapeOf isa tokens) := by
  by_cases hclass : classToken < k
  · have hsame : (tokens.take k)[classToken]? = tokens[classToken]? :=
      List.getElem?_take_of_lt hclass
    rw [classOf, classOf, shapeOf, shapeOf, hsame]
  · -- Without a class token neither of the two is asked for.
    obtain rfl : k = 2 := by
      rw [classToken] at hclass
      omega
    rcases tokens with _ | ⟨_, _ | ⟨_, _⟩⟩ <;> rfl

theorem finding_take_extendedBy (isa : Isa) (tokens : List String) {k : Nat} (hk : 2 ≤ k) :
    (finding isa (tokens.take k)).ExtendedBy (finding isa tokens) := by
  rw [finding, values_cut isa tokens hk]
  exact (values_extendedBy isa _ (List.take_prefix k tokens) _).map _

/-! ### The token at which a line fails -/

/-- A token that cannot be read brings no warning. -/
theorem value_warnings_of_error {isa : Isa} {kind : OpClass} {field : Field} {token : String}
    {part : Part} {m : Misreading} (h : (part.value isa kind field token).result = .error m) :
    (part.value isa kind field token).warnings = [] := by
  cases part with
  | register index =>
      rw [Part.value, Finding.expect] at h ⊢
      cases hread : readRegister token with
      | error reason => rfl
      | ok value =>
          rw [hread] at h
          cases h
  | offset =>
      rw [Part.value, Finding.expect] at h ⊢
      cases hread : readOffset token with
      | error reason => rfl
      | ok value =>
          rw [hread] at h
          obtain ⟨v, hv⟩ := Finding.exists_orWarn_map_result
            (if field.fits value then some value else none) (.offsetOutOfRange value) 0
            PartValue.offset
          cases hv.symm.trans h
  | opClass | opcode | condition =>
      obtain ⟨v, hv⟩ := Finding.exists_orWarn_map_result _ _ _ _
      cases hv.symm.trans h
  | immediate | writeEnable | signed | setFlags | predicate => cases h

theorem values_of_no_token {isa : Isa} {kind : OpClass} {tokens : List String}
    {slots : List (Part × Slot)} (h : ∀ s ∈ slots, tokens[s.2.token]? = none) :
    values isa kind tokens slots = .pure [] := by
  cases slots with
  | nil => rfl
  | cons first rest => exact values_cons_none (h first (List.mem_cons_self ..))

/-- If one more token makes a line fail, it adds no warning. -/
theorem values_succ_warnings {isa : Isa} {kind : OpClass} {tokens : List String} {k : Nat} :
    ∀ {slots : List (Part × Slot)}, slots.Pairwise (fun s t => s.2.Precedes t.2) →
      ∀ {vs : List PartValue} {ws ws' : List Warning} {m : Misreading},
      values isa kind (tokens.take k) slots = ⟨.ok vs, ws⟩ →
      values isa kind (tokens.take (k + 1)) slots = ⟨.error m, ws'⟩ → ws' = ws
  | [], _, _, _, _, _, _, hfails => by cases hfails
  | (part, slot) :: rest, hordered, vs, ws, ws', m, hreads, hfails => by
      rw [List.pairwise_cons] at hordered
      obtain ⟨hfirst, hordered⟩ := hordered
      rcases Nat.lt_trichotomy slot.token k with hlt | heq | hgt
      · -- Both lines have the token, so the rest decides.
        have hshort : (tokens.take k)[slot.token]? = tokens[slot.token]? :=
          List.getElem?_take_of_lt hlt
        have hlong : (tokens.take (k + 1))[slot.token]? = tokens[slot.token]? :=
          List.getElem?_take_of_lt (Nat.lt_succ_of_lt hlt)
        cases htoken : tokens[slot.token]? with
        | none =>
            rw [values_cons_none (hlong.trans htoken)] at hfails
            cases hfails
        | some token =>
            rw [values_cons_some (hshort.trans htoken), Finding.bind_eq_ok] at hreads
            obtain ⟨v, ws₁, ws₂, hv, hrest, rfl⟩ := hreads
            obtain ⟨vs, hvs, rfl⟩ := Finding.map_eq_ok.mp hrest
            rw [values_cons_some (hlong.trans htoken), hv, Finding.bind_mk_ok] at hfails
            obtain ⟨hresult, rfl⟩ := Finding.mk.injEq .. |>.mp hfails
            rw [Finding.map_result_eq_error] at hresult
            have ih := values_succ_warnings hordered hvs
              (show values isa kind (tokens.take (k + 1)) rest = ⟨.error m, _⟩ by rw [← hresult])
            exact congrArg (ws₁ ++ ·) ih
      · -- The new token stands in this slot, and no later slot has one.
        subst heq
        have hshort : (tokens.take slot.token)[slot.token]? = none := by simp
        rw [values_cons_none hshort] at hreads
        obtain ⟨-, rfl⟩ := Finding.mk.injEq .. |>.mp hreads
        have hlater : values isa kind (tokens.take (slot.token + 1)) rest = .pure [] := by
          refine values_of_no_token fun next hnext => ?_
          have hlt : slot.token < next.2.token := (hfirst next hnext).1
          simp
          omega
        cases htoken : (tokens.take (slot.token + 1))[slot.token]? with
        | none =>
            rw [values_cons_none htoken] at hfails
            cases hfails
        | some token =>
            rw [values_cons_some htoken] at hfails
            rcases Finding.bind_result_eq_error.mp (congrArg Finding.result hfails) with
              hvalue | ⟨v, -, hrest⟩
            · have hnoted := value_warnings_of_error hvalue
              rw [Finding.bind, hvalue, hnoted] at hfails
              exact (congrArg Finding.warnings hfails).symm
            · rw [hlater] at hrest
              cases hrest
      · have hnone : (tokens.take (k + 1))[slot.token]? = none := by
          simp
          omega
        rw [values_cons_none hnone] at hfails
        cases hfails

end Instruction

/-! ## Lines -/

namespace Line

theorem finding_take_extendedBy (isa : Isa) (tokens : List String) (k : Nat) :
    (finding isa (tokens.take k)).ExtendedBy (finding isa tokens) := by
  match tokens, k with
  | _, 0 => exact Finding.pure_extendedBy _ _
  | [], _ + 1 => exact Finding.extendedBy_refl _
  | [_], _ + 1 =>
      rw [List.take_succ_cons, List.take_nil]
      exact Finding.extendedBy_refl _
  | _ :: _ :: _, 1 => exact Finding.pure_extendedBy _ _
  | head :: literal :: rest, n + 2 =>
      have hcut := Instruction.finding_take_extendedBy isa (head :: literal :: rest)
        (Nat.le_add_left 2 n)
      rw [List.take_succ_cons, List.take_succ_cons] at hcut ⊢
      rw [finding, finding]
      cases Directive.Kind.ofMarker? head with
      | some kind => exact Finding.extendedBy_refl _
      | none => exact hcut.map _

/-- A failure stays when the line goes on, and so does what the sink has
taken in by then. -/
theorem read_error_of_prefix {isa : Isa} {tokens more : List String} (h : tokens <+: more)
    {sink after : Sink} {e : EncodeError}
    (hfails : (read isa tokens).runOn sink = (.error e, after)) :
    (read isa more).runOn sink = (.error e, after) := by
  rw [read_denotes] at hfails ⊢
  rw [List.prefix_iff_eq_take.mp h] at hfails
  exact (finding_take_extendedBy isa more _).onSink hfails

/-- If one more token makes a line fail, it adds no warning. -/
theorem finding_succ_warnings {revision : Revision} {tokens : List String} {k : Nat}
    {line : Line} {ws ws' : List Warning} {m : Misreading}
    (hreads : finding revision.isa (tokens.take k) = ⟨.ok line, ws⟩)
    (hfails : finding revision.isa (tokens.take (k + 1)) = ⟨.error m, ws'⟩) : ws' = ws := by
  match tokens, k with
  | [], 0 | [], _ + 1 | [_], 0 | _ :: _ :: _, 0 => cases hfails
  | [_], _ + 1 =>
      rw [List.take_succ_cons, List.take_nil] at hfails
      cases hfails
  | head :: literal :: rest, 1 =>
      obtain ⟨-, rfl⟩ := Finding.mk.injEq .. |>.mp hreads
      rw [List.take_succ_cons, List.take_succ_cons, finding] at hfails
      cases hmarker : Directive.Kind.ofMarker? head with
      | some kind =>
          rw [hmarker] at hfails
          exact (congrArg Finding.warnings hfails).symm
      | none =>
          rw [hmarker] at hfails
          cases hfails
  | head :: literal :: rest, n + 2 =>
      have hshort := Instruction.values_cut revision.isa (head :: literal :: rest)
        (Nat.le_add_left 2 n)
      have hlong := Instruction.values_cut revision.isa (head :: literal :: rest)
        (Nat.le_add_left 2 (n + 1))
      rw [List.take_succ_cons, List.take_succ_cons, finding] at hreads hfails
      cases hmarker : Directive.Kind.ofMarker? head with
      | some kind =>
          rw [hmarker] at hreads hfails
          cases hreads.symm.trans hfails
      | none =>
          rw [hmarker] at hreads hfails
          obtain ⟨i, hi, -⟩ := Finding.map_eq_ok.mp hreads
          obtain ⟨vs, hvs, -⟩ := Finding.map_eq_ok.mp hi
          have hordered := shape_ordered revision (revision.tail (head :: literal :: rest))
          rw [← shapeOf_eq] at hordered
          exact Instruction.values_succ_warnings hordered (hshort.symm.trans hvs)
            (hlong.symm.trans (Finding.map_eq_error.mp (Finding.map_eq_error.mp hfails)))

end Line

/-! ## Encoding -/

namespace Encoder

theorem encodeTokens_eq_error_iff (encoder : Encoder) {tokens : List String}
    {e : EncodeError} :
    encoder.encodeTokens tokens = .error e ↔
      ∃ sink, (Line.read encoder.revision.isa tokens).runOn (.fresh encoder.mode)
        = (.error e, sink) := by
  rw [encodeTokens, parse]
  obtain ⟨result, sink⟩ :=
    (Line.read encoder.revision.isa tokens).runOn (.fresh encoder.mode)
  cases result <;> simp [Except.map]

theorem encodeTokens_error_of_prefix {encoder : Encoder} {tokens more : List String}
    (h : tokens <+: more) {e : EncodeError} (hfails : encoder.encodeTokens tokens = .error e) :
    encoder.encodeTokens more = .error e := by
  obtain ⟨sink, hsink⟩ := encoder.encodeTokens_eq_error_iff.mp hfails
  exact encoder.encodeTokens_eq_error_iff.mpr ⟨sink, Line.read_error_of_prefix h hsink⟩

/-- The short prefixes of a line encode, and the long ones fail alike. -/
theorem exists_threshold (encoder : Encoder) (tokens : List String) :
    ∃ n ≤ tokens.length,
      (∀ k ≤ n, ∃ encoded, encoder.encodeTokens (tokens.take k) = .ok encoded)
      ∧ (n < tokens.length → ∃ e, ∀ k > n, encoder.encodeTokens (tokens.take k) = .error e) := by
  have hok : ∀ k, (¬ ∃ e, encoder.encodeTokens (tokens.take k) = .error e) →
      ∃ encoded, encoder.encodeTokens (tokens.take k) = .ok encoded := by
    intro k hk
    cases hencode : encoder.encodeTokens (tokens.take k) with
    | ok encoded => exact ⟨encoded, rfl⟩
    | error e => exact absurd ⟨e, hencode⟩ hk
  by_cases hfails : ∃ k, ∃ e, encoder.encodeTokens (tokens.take k) = .error e
  · classical
    -- The shortest prefix that fails is not the empty one, which is blank.
    obtain ⟨e, he⟩ := Nat.find_spec hfails
    have hpos : Nat.find hfails ≠ 0 := by
      intro hzero
      rw [hzero, List.take_zero, encodeTokens_blank (by decide)] at he
      cases he
    have hle : Nat.find hfails ≤ tokens.length := by
      refine Nat.find_min' hfails ⟨e, encodeTokens_error_of_prefix ?_ he⟩
      rw [List.take_length]
      exact List.take_prefix _ _
    refine ⟨Nat.find hfails - 1, by omega, fun k hk => hok k (Nat.find_min hfails (by omega)),
      fun _ => ⟨e, fun k hk => encodeTokens_error_of_prefix ?_ he⟩⟩
    exact List.take_prefix_take_left (by omega)
  · refine ⟨tokens.length, Nat.le_refl _, fun k _ => hok k fun hk => hfails ⟨k, hk⟩,
      fun hlt => absurd hlt (Nat.lt_irrefl _)⟩

end Encoder

/-! ## Failures -/

namespace Line

/-- If one more token makes a line fail, the sink takes in nothing more. -/
theorem sink_eq_of_succ_fails {revision : Revision} {mode : Mode} {tokens : List String}
    {k : Nat} {line : Line} {e : EncodeError} {sink after : Sink}
    (hreads : (read revision.isa (tokens.take k)).runOn (.fresh mode) = (.ok line, sink))
    (hfails : (read revision.isa (tokens.take (k + 1))).runOn (.fresh mode)
      = (.error e, after)) : after = sink := by
  cases mode with
  | strict =>
      have hshort := (read_denotes revision.isa (tokens.take k)).strict_sink []
      have hlong := (read_denotes revision.isa (tokens.take (k + 1))).strict_sink []
      rw [Sink.fresh] at hreads hfails
      rw [hreads] at hshort
      rw [hfails] at hlong
      exact hlong.trans hshort.symm
  | lenient =>
      rw [read_denotes] at hreads hfails
      rcases hshort : finding revision.isa (tokens.take k) with ⟨result, ws⟩
      rcases hlong : finding revision.isa (tokens.take (k + 1)) with ⟨result', ws'⟩
      rw [hshort] at hreads
      rw [hlong] at hfails
      cases result with
      | error m => cases hreads
      | ok line' =>
          cases result' with
          | ok line' => cases hfails
          | error m =>
              obtain ⟨-, rfl⟩ := Prod.mk.inj hreads
              obtain ⟨-, rfl⟩ := Prod.mk.inj hfails
              rw [finding_succ_warnings hshort hlong]

/-- A line that fails does so at one of its tokens. Without it the line is
read, and the sink takes in the same. -/
theorem exists_failing_token {revision : Revision} {mode : Mode} {tokens : List String}
    {e : EncodeError} {sink : Sink}
    (h : (read revision.isa tokens).runOn (.fresh mode) = (.error e, sink)) :
    ∃ k < tokens.length,
      (∃ line, (read revision.isa (tokens.take k)).runOn (.fresh mode) = (.ok line, sink))
      ∧ (read revision.isa (tokens.take (k + 1))).runOn (.fresh mode) = (.error e, sink) := by
  have herror : ∀ {line : List String} {e : EncodeError},
      (Encoder.mk revision mode).encodeTokens line = .error e ↔
        ∃ sink, (read revision.isa line).runOn (.fresh mode) = (.error e, sink) :=
    Encoder.encodeTokens_eq_error_iff _
  obtain ⟨k, hk, hencodes, hfails⟩ := (Encoder.mk revision mode).exists_threshold tokens
  obtain ⟨encoded, hencoded⟩ := hencodes k (Nat.le_refl k)
  have hlt : k < tokens.length := by
    refine Nat.lt_of_le_of_ne hk fun heq => ?_
    rw [heq, List.take_length, herror.mpr ⟨sink, h⟩] at hencoded
    cases hencoded
  obtain ⟨e', he'⟩ := hfails hlt
  obtain ⟨after, hafter⟩ := herror.mp (he' (k + 1) (Nat.lt_succ_self k))
  -- What this token brings about is what becomes of the whole line.
  have hwhole := read_error_of_prefix (List.take_prefix (k + 1) tokens) hafter
  obtain ⟨he, rfl⟩ := Prod.mk.inj (hwhole.symm.trans h)
  obtain rfl := Except.error.inj he
  rcases hshort : (read revision.isa (tokens.take k)).runOn (.fresh mode) with ⟨result, before⟩
  cases result with
  | error e =>
      rw [herror.mpr ⟨before, hshort⟩] at hencoded
      cases hencoded
  | ok line =>
      obtain rfl := sink_eq_of_succ_fails hshort hafter
      exact ⟨k, hlt, ⟨line, hshort⟩, hafter⟩

/-- **Failures are stable.** A line that fails leaves an error and some
warnings behind, and every line that goes on from it leaves the same.
So up to some length the prefixes of a line encode, and all longer ones
fail with one and the same error. -/
theorem failure_stable (revision : Revision) (mode : Mode) (tokens : List String) :
    (∀ k e sink, (read revision.isa (tokens.take k)).runOn (.fresh mode) = (.error e, sink) →
      ∀ more, tokens.take k <+: more →
        (read revision.isa more).runOn (.fresh mode) = (.error e, sink))
    ∧ ∃ n ≤ tokens.length,
      (∀ k ≤ n, ∃ encoded,
        (Encoder.mk revision mode).encodeTokens (tokens.take k) = .ok encoded)
      ∧ (n < tokens.length →
        ∃ e, ∀ k > n, (Encoder.mk revision mode).encodeTokens (tokens.take k) = .error e) :=
  ⟨fun _ _ _ hfails _ hmore => read_error_of_prefix hmore hfails,
    (Encoder.mk revision mode).exists_threshold tokens⟩

/-- Two warnings come before the operand that is no register, and nothing after it counts. -/
theorem failure_stable_register :
    (read Revision.v2.isa ["n", "0", "x", "add", "r99", "rx", "r3", "oops"]).runOn (.fresh .lenient)
      = (.error (.unreadable .registerOperand "rx" (.integer .invalidDigit)),
        ⟨.lenient, [.unknownClass "x", .registerOutOfRange 0 99 15]⟩) :=
  (failure_stable .v2 .lenient ["n", "0", "x", "add", "r99", "rx"]).1 6 _ _ rfl _
    ⟨["r3", "oops"], rfl⟩

end Line

end LineAsm
