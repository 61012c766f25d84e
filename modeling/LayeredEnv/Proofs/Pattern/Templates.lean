import LayeredEnv.Pattern.Replacement
import Mathlib.Data.List.Basic
import Mathlib.Tactic.IntervalCases

namespace LayeredEnv.Replacement

namespace Captures

def HasGroup (captures : Captures) (index : Nat) : Prop :=
  1 ≤ index ∧ index ≤ captures.groups.length

/-- What a group captured; one that took no part in the match captured nothing. -/
inductive Captured (captures : Captures) : Nat → List Char → Prop
  | taken {index : Nat} {text : List Char}
      (h : captures.groups[index - 1]? = some (some text)) : Captured captures index text
  | idle {index : Nat} (h : ∀ text, captures.groups[index - 1]? ≠ some (some text)) :
      Captured captures index []

inductive CapturedAs (captures : Captures) : String → List Char → Prop
  | known {name : String} {index : Nat} {text : List Char}
      (h : captures.names.lookup name = some index) (captured : captures.Captured index text) :
      CapturedAs captures name text
  | unknown {name : String} (h : captures.names.lookup name = none) : CapturedAs captures name []

/-- What the reference behind a dollar sign is replaced with, and the text behind the reference. -/
inductive Refers (captures : Captures) : List Char → List Char → List Char → Prop
  | dollar (rest : List Char) : Refers captures ('$' :: rest) ['$'] rest
  | whole (rest : List Char) : Refers captures ('&' :: rest) captures.whole rest
  | before (rest : List Char) : Refers captures ('\x60' :: rest) captures.before rest
  | after (rest : List Char) : Refers captures ('\x27' :: rest) captures.after rest
  | twoDigits {d e : Nat} (hd : d < 10) (he : e < 10) (group : captures.HasGroup (10 * d + e))
      {text : List Char} (captured : captures.Captured (10 * d + e) text) (rest : List Char) :
      Refers captures (d.digitChar :: e.digitChar :: rest) text rest
  | oneDigit {d : Nat} (hd : d < 10) (group : captures.HasGroup d) {text rest : List Char}
      (captured : captures.Captured d text)
      (short : ∀ e < 10, rest.head? = some e.digitChar → ¬captures.HasGroup (10 * d + e)) :
      Refers captures (d.digitChar :: rest) text rest
  | named (names : captures.names ≠ []) (name : List Char) {text : List Char} (first : '>' ∉ name)
      (captured : captures.CapturedAs (.ofList name) text) (rest : List Char) :
      Refers captures ('<' :: (name ++ '>' :: rest)) text rest

/-- The text that a template comes to, read from left to right: a dollar sign with a reference
behind it is replaced, and every other character stays. -/
inductive Substitutes (captures : Captures) : List Char → List Char → Prop
  | nil : Substitutes captures [] []
  | char {c : Char} {rest out : List Char} (hc : c ≠ '$') (h : Substitutes captures rest out) :
      Substitutes captures (c :: rest) (c :: out)
  | reference {rest text remaining out : List Char} (refers : captures.Refers rest text remaining)
      (h : Substitutes captures remaining out) : Substitutes captures ('$' :: rest) (text ++ out)
  | alone {rest out : List Char} (none : ∀ text remaining, ¬captures.Refers rest text remaining)
      (h : Substitutes captures rest out) : Substitutes captures ('$' :: rest) ('$' :: out)

end Captures

variable {captures : Captures} {rest text remaining template out : List Char} {d : Nat}

theorem hasGroup_iff {index : Nat} : captures.hasGroup index = true ↔ captures.HasGroup index := by
  simp [Captures.hasGroup, Captures.HasGroup]

theorem captured_iff {index : Nat} :
    captures.Captured index text ↔ captures.group index = text := by
  rw [Captures.group]
  constructor
  · rintro (h | h)
    · rw [h]
      rfl
    · rcases hgroup : captures.groups[index - 1]? with _ | _ | text
      · rfl
      · rfl
      · exact absurd hgroup (h text)
  · rintro rfl
    rcases hgroup : captures.groups[index - 1]? with _ | _ | text
    · exact .idle fun text he => by cases hgroup.symm.trans he
    · exact .idle fun text he => by cases hgroup.symm.trans he
    · exact .taken hgroup

theorem capturedAs_iff {name : String} :
    captures.CapturedAs name text ↔ captures.named name = text := by
  rw [Captures.named]
  constructor
  · rintro (⟨h, captured⟩ | h)
    · rw [h, Option.map_some, Option.getD_some, captured_iff.mp captured]
    · rw [h]
      rfl
  · rintro rfl
    cases h : captures.names.lookup name with
    | none => exact .unknown h
    | some index => exact .known h (captured_iff.mpr rfl)

theorem digitValue_digitChar (hd : d < 10) : digitValue d.digitChar = d := by
  revert d
  decide

theorem isDigit_digitChar (hd : d < 10) : Text.isDigit d.digitChar = true := by
  revert d
  decide

theorem digitChar_digitValue {c : Char} (h : Text.isDigit c = true) :
    digitValue c < 10 ∧ (digitValue c).digitChar = c := by
  simp only [Text.isDigit, Bool.and_eq_true, decide_eq_true_eq, Char.le_def,
    UInt32.le_iff_toNat_le] at h
  have hlow : 48 ≤ c.toNat := h.1
  have hhigh : c.toNat ≤ 57 := h.2
  have hchar : ∀ d < 10, Nat.digitChar d = Char.ofNat (d + 48) := by decide
  have hvalue : digitValue c < 10 := by
    rw [digitValue]
    omega
  refine ⟨hvalue, ?_⟩
  rw [hchar _ hvalue, digitValue, Nat.sub_add_cancel hlow, Char.ofNat_toNat]

theorem digitChar_inj {e : Nat} (hd : d < 10) (he : e < 10) (h : d.digitChar = e.digitChar) :
    d = e := by
  rw [← digitValue_digitChar hd, h, digitValue_digitChar he]

/-- Two digits are read before one. -/
theorem groupReference_twoDigits {e : Nat} (hd : d < 10) (he : e < 10)
    (group : captures.HasGroup (10 * d + e)) (rest : List Char) :
    groupReference captures (d.digitChar :: e.digitChar :: rest) =
      some (captures.group (10 * d + e), rest) := by
  rw [groupReference, digitValue_digitChar hd, digitValue_digitChar he, isDigit_digitChar he,
    hasGroup_iff.mpr group]
  rfl

theorem groupReference_oneDigit (hd : d < 10)
    (short : ∀ e < 10, rest.head? = some e.digitChar → ¬captures.HasGroup (10 * d + e)) :
    groupReference captures (d.digitChar :: rest) =
      if captures.hasGroup d then some (captures.group d, rest) else none := by
  cases rest with
  | nil => rw [groupReference, digitValue_digitChar hd]
  | cons c more =>
    have hlong : ¬(Text.isDigit c && captures.hasGroup (10 * d + digitValue c)) = true := by
      rw [Bool.and_eq_true, hasGroup_iff]
      rintro ⟨hc, group⟩
      obtain ⟨hlt, hchar⟩ := digitChar_digitValue hc
      exact short _ hlt (by rw [hchar, List.head?_cons]) group
    rw [groupReference, digitValue_digitChar hd]
    exact if_neg hlong

theorem reference_digitChar (hd : d < 10) (rest : List Char) :
    reference captures (d.digitChar :: rest) = groupReference captures (d.digitChar :: rest) := by
  interval_cases d <;> rfl

/-- Where two digits name no group, one digit may. -/
theorem refers_of_groupReference (hd : d < 10)
    (h : groupReference captures (d.digitChar :: rest) = some (text, remaining)) :
    captures.Refers (d.digitChar :: rest) text remaining := by
  by_cases long : ∃ e < 10, rest.head? = some e.digitChar ∧ captures.HasGroup (10 * d + e)
  · obtain ⟨e, he, hhead, group⟩ := long
    obtain ⟨more, rfl⟩ := List.head?_eq_some_iff.mp hhead
    rw [groupReference_twoDigits hd he group] at h
    cases h
    exact .twoDigits hd he group (captured_iff.mpr rfl) _
  · have short : ∀ e < 10, rest.head? = some e.digitChar → ¬captures.HasGroup (10 * d + e) :=
      fun e he hhead group => long ⟨e, he, hhead, group⟩
    rw [groupReference_oneDigit hd short] at h
    obtain ⟨group, he⟩ := Option.ite_none_right_eq_some.mp h
    cases he
    exact .oneDigit hd (hasGroup_iff.mp group) (captured_iff.mpr rfl) short

theorem refers_of_reference {cs : List Char} (h : reference captures cs = some (text, remaining)) :
    captures.Refers cs text remaining := by
  unfold reference at h
  split at h
  · cases h
  · split at h
    · cases h
      exact .dollar _
    · cases h
      exact .whole _
    · cases h
      exact .before _
    · cases h
      exact .after _
    · obtain ⟨names, h⟩ := Option.ite_none_left_eq_some.mp h
      obtain ⟨⟨name, more⟩, hsplit, he⟩ := Option.map_eq_some_iff.mp h
      cases he
      obtain ⟨rfl, first⟩ := Text.splitAtFirst_eq_some_iff.mp hsplit
      exact .named (by simpa using names) name first (capturedAs_iff.mpr rfl) _
    · obtain ⟨hc, h⟩ := Option.ite_none_right_eq_some.mp h
      obtain ⟨hd, hchar⟩ := digitChar_digitValue hc
      rw [← hchar] at h ⊢
      exact refers_of_groupReference hd h

theorem Captures.Refers.reference_eq {cs : List Char} (h : captures.Refers cs text remaining) :
    reference captures cs = some (text, remaining) := by
  cases h with
  | dollar | whole | before | after => rfl
  | twoDigits hd he group captured =>
    rw [reference_digitChar hd, groupReference_twoDigits hd he group, captured_iff.mp captured]
  | oneDigit hd group captured short =>
    rw [reference_digitChar hd, groupReference_oneDigit hd short, if_pos (hasGroup_iff.mpr group),
      captured_iff.mp captured]
  | named names name first captured =>
    have hnames : captures.names.isEmpty = false := by simpa using names
    rw [reference, hnames, Text.splitAtFirst_append first, ← capturedAs_iff.mp captured]
    rfl

/-- References are read by the rules. -/
theorem reference_eq_some_iff {cs : List Char} :
    reference captures cs = some (text, remaining) ↔ captures.Refers cs text remaining :=
  ⟨refers_of_reference, Captures.Refers.reference_eq⟩

theorem reference_eq_none_iff {cs : List Char} :
    reference captures cs = none ↔ ∀ text remaining, ¬captures.Refers cs text remaining := by
  simp only [← reference_eq_some_iff, Option.eq_none_iff_forall_ne_some, Prod.forall, ne_eq]

theorem expand_of_ne {c : Char} (hc : c ≠ '$') (rest : List Char) :
    expand captures (c :: rest) = c :: expand captures rest := by
  rw [expand, if_neg fun he => hc (eq_of_beq he)]

theorem expand_of_refers (h : captures.Refers rest text remaining) :
    expand captures ('$' :: rest) = text ++ expand captures remaining := by
  rw [expand, if_pos (beq_self_eq_true _)]
  split
  · next hs =>
    rw [h.reference_eq] at hs
    cases hs
    rfl
  · next hn =>
    rw [h.reference_eq] at hn
    cases hn

theorem expand_of_alone (h : ∀ text remaining, ¬captures.Refers rest text remaining) :
    expand captures ('$' :: rest) = '$' :: expand captures rest := by
  rw [expand, if_pos (beq_self_eq_true _)]
  split
  · next hs => exact absurd (refers_of_reference hs) (h _ _)
  · rfl

theorem substitutes_expand (captures : Captures) (template : List Char) :
    captures.Substitutes template (expand captures template) := by
  fun_induction expand captures template with
  | case1 => exact .nil
  | case2 c rest hc text remaining hs _ ih =>
    obtain rfl := eq_of_beq hc
    exact .reference (refers_of_reference hs) ih
  | case3 c rest hc hn ih =>
    obtain rfl := eq_of_beq hc
    exact .alone (reference_eq_none_iff.mp hn) ih
  | case4 c rest hc ih => exact .char (fun he => hc (beq_iff_eq.mpr he)) ih

theorem Captures.Substitutes.expand_eq (h : captures.Substitutes template out) :
    expand captures template = out := by
  induction h with
  | nil => rw [expand]
  | char hc _ ih => rw [expand_of_ne hc, ih]
  | reference refers _ ih => rw [expand_of_refers refers, ih]
  | alone none _ ih => rw [expand_of_alone none, ih]

structure Captures.Cuts (captures : Captures) (text : List Char) (first last : Nat) : Prop where
  text_eq : text = captures.before ++ captures.whole ++ captures.after
  length_before : captures.before.length = first
  length_whole : first + captures.whole.length = last

theorem capturesOf_cuts (program : Regex.Program) {slots : Regex.Slots} {first last : Nat}
    (bounds : slots.bounds? 0 = some (first, last)) (order : first ≤ last)
    (inside : last ≤ text.length) : (capturesOf program text slots).Cuts text first last := by
  have hbefore : (capturesOf program text slots).before = text.take first := by
    rw [capturesOf, bounds]
    rfl
  have hwhole : (capturesOf program text slots).whole = (text.drop first).take (last - first) := by
    rw [capturesOf, bounds]
    rfl
  have hafter : (capturesOf program text slots).after = (text.drop first).drop (last - first) := by
    rw [capturesOf, bounds, List.drop_drop, Nat.add_sub_cancel' order]
    rfl
  refine ⟨?_, ?_, ?_⟩
  · rw [hbefore, hwhole, hafter, List.append_assoc, List.take_append_drop, List.take_append_drop]
  · rw [hbefore, List.length_take]
    omega
  · rw [hwhole, List.length_take, List.length_drop]
    omega

/-- A template comes to the text that the rules give it, whatever the groups of the match and their
names are; what stands around the match is the rest of the text that it was found in. -/
theorem expand_eq_iff_substitutes :
    (∀ (captures : Captures) (template out : List Char),
      expand captures template = out ↔ captures.Substitutes template out) ∧
    ∀ (program : Regex.Program) (text : List Char) (slots : Regex.Slots) (first last : Nat),
      slots.bounds? 0 = some (first, last) → first ≤ last → last ≤ text.length →
      (capturesOf program text slots).Cuts text first last := by
  refine ⟨fun captures template out => ⟨?_, Captures.Substitutes.expand_eq⟩,
    fun program text slots first last bounds order inside =>
      capturesOf_cuts program bounds order inside⟩
  rintro rfl
  exact substitutes_expand captures template

/-- The named group of a match in the middle of a text, by its number. -/
theorem expand_eq_iff_substitutes_middle :
    let program := (Regex.Expr.group 1 (some "n") (.literal 'b' [])).program
    let slots : Regex.Slots := #[some 1, some 2, some 1, some 2]
    let captures := capturesOf program ['a', 'b', 'c'] slots
    slots.bounds? 0 = some (1, 2) ∧ captures.Cuts ['a', 'b', 'c'] 1 2 ∧
      captures.Substitutes "$1$0".toList ['b', '$', '0'] := by
  intro program slots captures
  refine ⟨rfl, expand_eq_iff_substitutes.2 program _ slots 1 2 rfl (by decide) (by decide), ?_⟩
  refine (expand_eq_iff_substitutes.1 captures _ _).mp ?_
  cbv

example : expand ⟨['a'], ['b'], ['c'], [none, some ['x']], []⟩ "$02$21$1$0$$&".toList =
    "xx1$0$&".toList := by
  cbv

/-- Reading `template` from its start comes to `rest` after having written `written`. -/
inductive Captures.Scans (captures : Captures) : List Char → List Char → List Char → Prop
  | here (template : List Char) : Scans captures template [] template
  | char {c : Char} {rest written remaining : List Char} (hc : c ≠ '$')
      (h : Scans captures rest written remaining) :
      Scans captures (c :: rest) (c :: written) remaining
  | reference {rest text more written remaining : List Char}
      (refers : captures.Refers rest text more) (h : Scans captures more written remaining) :
      Scans captures ('$' :: rest) (text ++ written) remaining
  | alone {rest written remaining : List Char}
      (none : ∀ text remaining, ¬captures.Refers rest text remaining)
      (h : Scans captures rest written remaining) :
      Scans captures ('$' :: rest) ('$' :: written) remaining

/-- A reference that names no group of the expression, in its written form, and the text behind it.
A digit is no reference by itself if it names a group together with the next one, and two digits are
none if the first of them names a group. -/
inductive Captures.Missing (captures : Captures) : (byName : Bool) → List Char → List Char → Prop
  | digit {d : Nat} (hd : d < 10) (group : ¬captures.HasGroup d) {rest : List Char}
      (short : ∀ e < 10, rest.head? = some e.digitChar → ¬captures.HasGroup (10 * d + e)) :
      Missing captures false ['$', d.digitChar] rest
  | digits {d e : Nat} (hd : d < 10) (he : e < 10) (group : ¬captures.HasGroup d)
      (long : ¬captures.HasGroup (10 * d + e)) (rest : List Char) :
      Missing captures false ['$', d.digitChar, e.digitChar] rest
  | name (name : List Char) (plain : '$' ∉ name) (first : '>' ∉ name)
      (unknown : captures.names.lookup (.ofList name) = none) (rest : List Char) :
      Missing captures true ('$' :: '<' :: (name ++ ['>'])) rest

variable {written spelling : List Char} {byName : Bool}

theorem Captures.Scans.expand_eq (h : captures.Scans template written rest) :
    expand captures template = written ++ expand captures rest := by
  induction h with
  | here => rfl
  | char hc _ ih => rw [expand_of_ne hc, ih, List.cons_append]
  | reference refers _ ih => rw [expand_of_refers refers, ih, List.append_assoc]
  | alone none _ ih => rw [expand_of_alone none, ih, List.cons_append]

theorem expand_append_of_notMem {front : List Char} (h : '$' ∉ front) (rest : List Char) :
    expand captures (front ++ rest) = front ++ expand captures rest := by
  induction front with
  | nil => rfl
  | cons c front ih =>
    rw [List.mem_cons, not_or] at h
    rw [List.cons_append, expand_of_ne (Ne.symm h.1), ih h.2, List.cons_append]

theorem digitChar_ne_dollar (hd : d < 10) : d.digitChar ≠ '$' := by
  revert d
  decide

theorem expand_missing_digit (hd : d < 10) (group : ¬captures.HasGroup d)
    (short : ∀ e < 10, rest.head? = some e.digitChar → ¬captures.HasGroup (10 * d + e)) :
    expand captures ('$' :: d.digitChar :: rest) = '$' :: d.digitChar :: expand captures rest := by
  have hnone : reference captures (d.digitChar :: rest) = none := by
    rw [reference_digitChar hd, groupReference_oneDigit hd short,
      if_neg fun h => group (hasGroup_iff.mp h)]
  rw [expand_of_alone (reference_eq_none_iff.mp hnone), expand_of_ne (digitChar_ne_dollar hd)]

/-- Without named groups the reference is text. -/
theorem expand_missing_name_of_eq_nil {name : List Char} (names : captures.names = [])
    (plain : '$' ∉ name) :
    expand captures ('$' :: '<' :: (name ++ '>' :: rest)) =
      '$' :: '<' :: (name ++ '>' :: expand captures rest) := by
  have hnone : reference captures ('<' :: (name ++ '>' :: rest)) = none := by
    rw [reference, names]
    rfl
  rw [expand_of_alone (reference_eq_none_iff.mp hnone), expand_of_ne (by decide),
    expand_append_of_notMem plain, expand_of_ne (by decide)]

/-- Among named groups the reference comes to nothing. -/
theorem expand_missing_name_of_ne_nil {name : List Char} (names : captures.names ≠ [])
    (first : '>' ∉ name) (unknown : captures.names.lookup (.ofList name) = none) :
    expand captures ('$' :: '<' :: (name ++ '>' :: rest)) = expand captures rest := by
  rw [expand_of_refers (.named names name first (.unknown unknown) rest), List.nil_append]

theorem Captures.Missing.expand_eq (h : captures.Missing byName spelling rest) :
    expand captures (spelling ++ rest) =
      (if byName = true ∧ captures.names ≠ [] then [] else spelling) ++ expand captures rest := by
  cases h with
  | digit hd group short => exact expand_missing_digit hd group short
  | digits hd he group long =>
    have short : ∀ e' < 10, (Nat.digitChar _ :: rest).head? = some e'.digitChar →
        ¬captures.HasGroup (10 * _ + e') := fun e' he' hhead => by
      obtain rfl := digitChar_inj he he' (Option.some.inj hhead)
      exact long
    exact (expand_missing_digit hd group short).trans
      (by rw [expand_of_ne (digitChar_ne_dollar he)]; rfl)
  | name name plain first unknown =>
    rw [List.cons_append, List.cons_append, List.append_assoc, List.singleton_append]
    by_cases names : captures.names = []
    · rw [expand_missing_name_of_eq_nil names plain, if_neg fun h => h.2 names, List.cons_append,
        List.cons_append, List.append_assoc, List.singleton_append]
    · rw [expand_missing_name_of_ne_nil names first unknown, if_pos ⟨rfl, names⟩,
        List.nil_append]

theorem Captures.Missing.ne_nil (h : captures.Missing byName spelling rest) : spelling ≠ [] := by
  cases h <;> exact List.cons_ne_nil _ _

/-- A reference to a group that does not exist stays as it was written, except one by name in an
expression that has groups with other names, which is dropped. -/
theorem expand_keeps_missing_iff (scans : captures.Scans template written (spelling ++ rest))
    (missing : captures.Missing byName spelling rest) :
    (expand captures template = written ++ spelling ++ expand captures rest ↔
      (byName = true → captures.names = [])) ∧
    (byName = true → captures.names ≠ [] →
      expand captures template = written ++ expand captures rest) := by
  rw [scans.expand_eq, missing.expand_eq]
  by_cases dropped : byName = true ∧ captures.names ≠ []
  · rw [if_pos dropped, List.nil_append, List.append_assoc, List.append_cancel_left_eq]
    exact ⟨iff_of_false (fun he => missing.ne_nil (List.self_eq_append_left.mp he))
      fun h => dropped.2 (h dropped.1), fun _ _ => rfl⟩
  · rw [if_neg dropped, ← List.append_assoc]
    refine ⟨iff_of_true rfl fun h => ?_, fun h names => absurd ⟨h, names⟩ dropped⟩
    by_contra names
    exact dropped ⟨h, names⟩

/-- Of two references by name the misspelt one is dropped. -/
theorem expand_keeps_missing_iff_otherName :
    let captures : Captures := ⟨['a'], ['b'], ['c'], [some ['b']], [("n", 1)]⟩
    captures.Scans "$<n>$<m>.".toList ['b'] ("$<m>".toList ++ ['.']) ∧
      captures.Missing true "$<m>".toList ['.'] ∧
      expand captures "$<n>$<m>.".toList = ['b'] ++ expand captures ['.'] := by
  intro captures
  have hnamed : captures.Refers "<n>$<m>.".toList ['b'] ("$<m>".toList ++ ['.']) :=
    .named (List.cons_ne_nil _ _) ['n'] (by decide) (.known rfl (.taken rfl)) _
  have scans : captures.Scans "$<n>$<m>.".toList ['b'] ("$<m>".toList ++ ['.']) :=
    .reference hnamed (.here _)
  have missing : captures.Missing true "$<m>".toList ['.'] :=
    .name ['m'] (by decide) (by decide) rfl _
  exact ⟨scans, missing,
    (expand_keeps_missing_iff scans missing).2 rfl (List.cons_ne_nil _ _)⟩

theorem ok_of_toOption {α : Type} {result : Except Error α} {a : α}
    (h : result.toOption = some a) : result = .ok a := by
  cases result with
  | error => cases h
  | ok => exact congrArg Except.ok (Option.some.inj h)

/-- A name that no group has is dropped where another group has a name, and stays where none has. -/
theorem replace_drops_unknownName :
    replace "abc" "(?<_>b)" "[$<m>]" false = .ok "a[]c" ∧
      replace "abc" "b" "[$<m>]" false = .ok "a[$<m>]c" :=
  ⟨ok_of_toOption (by decide +kernel), ok_of_toOption (by decide +kernel)⟩

end LayeredEnv.Replacement
