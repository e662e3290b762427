import DroidPerf.Agent

/-!
# DroidPerf.LineScopeSound

What the text of a line tells (`lineNumber_scope`).

The line of a frame and the first and last line of its method are joined by `0`, so that
the converter can read them as one number. A `0` can also be a digit of one of the three, and
then the text may have other lines.

`LineSpan.Recut` says from the digits of the three lines whether it has. The text of other lines
is the same text with two other zeros taken as the joints, and `append_zero_cases` tells where
each of these can be: there are nine pairs of places, and the order of the three lines
(`LineSpan.Valid`) leaves those that `Recut` lists. In one direction this is
`LineSpan.Valid.eq_or_recut`; in the other one, `LineSpan.Valid.exists_other` builds the other
lines from the cut. Both directions are `scope_determines_span`.
-/

namespace DroidPerf

open Text

/-- The three lines in `lineNumber_scope`. -/
structure LineSpan where
  line : Int
  lineBegin : Int
  lineEnd : Int
  deriving DecidableEq, Repr

/-- The lines for a location. -/
def LineTable.span (t : LineTable) (location : Int) : LineSpan :=
  ⟨t.line location, t.first.lineNumber, t.lineEnd⟩

namespace LineSpan

/-- A line between the first and the last one of a method. -/
def Valid (s : LineSpan) : Prop :=
  0 < s.lineBegin ∧ s.lineBegin ≤ s.line ∧ s.line ≤ s.lineEnd

instance (s : LineSpan) : Decidable s.Valid := inferInstanceAs (Decidable (_ ∧ _ ∧ _))

/-- The three lines joined. -/
def text (s : LineSpan) : List Char :=
  decimal s.line ++ '0' :: (decimal s.lineBegin ++ '0' :: decimal s.lineEnd)

/-- Some table has these lines. -/
def table (s : LineSpan) : LineTable := ⟨⟨0, s.lineBegin⟩, [⟨0, s.line⟩, ⟨1, s.lineEnd⟩]⟩

/-! #### Other cuts

The text of three lines is cut into other three lines by taking two other zeros. Which zeros
those can be is told by the lines themselves. -/

/-- A cut inside of the line, with what is in front of it as the line. The first line is what
is behind it, or as much of that as is in front of another `0`. -/
def LineCut (s : LineSpan) : Prop :=
  ∃ cut ∈ zeroCuts (decimal s.line), numberOf cut.2 ≤ numberOf cut.1 ∨
    ∃ inner ∈ zeroCuts cut.2, numberOf inner.1 ≤ numberOf cut.1

instance (s : LineSpan) : Decidable s.LineCut :=
  inferInstanceAs (Decidable (∃ cut ∈ zeroCuts (decimal s.line), _ ∨ _))

/-- A cut inside of the last line. The line is as before, or goes on to the old first line, or
to what is in front of the cut. -/
def EndCut (s : LineSpan) : Prop :=
  ∃ cut ∈ zeroCuts (decimal s.lineEnd),
    (numberOf (decimal s.lineBegin ++ '0' :: cut.1) ≤ s.line ∧ s.line ≤ numberOf cut.2) ∨
    (numberOf cut.1 ≤ numberOf (decimal s.line ++ '0' :: decimal s.lineBegin) ∧
      numberOf (decimal s.line ++ '0' :: decimal s.lineBegin) ≤ numberOf cut.2) ∨
    ∃ inner ∈ zeroCuts cut.2,
      numberOf inner.1 ≤ numberOf (decimal s.line ++ '0' :: (decimal s.lineBegin ++ '0' :: cut.1)) ∧
      numberOf (decimal s.line ++ '0' :: (decimal s.lineBegin ++ '0' :: cut.1)) ≤
        numberOf inner.2

instance (s : LineSpan) : Decidable s.EndCut :=
  inferInstanceAs (Decidable (∃ cut ∈ zeroCuts (decimal s.lineEnd), _ ∨ _ ∨ _))

/-- The lines have the text of others: the first line has a `0` before another digit, or there
is a cut inside of the line or inside of the last line. -/
def Recut (s : LineSpan) : Prop :=
  zeroCuts (decimal s.lineBegin) ≠ [] ∨ s.LineCut ∨ s.EndCut

instance (s : LineSpan) : Decidable s.Recut := inferInstanceAs (Decidable (_ ∨ _ ∨ _))

end LineSpan

/-! ### Numbers and their digits

The digits of the lines are numerals, and every numeral is the digits of a line. So what
follows is about numerals, and lines come back in only at the end. -/

/-- The digits of a positive number are a numeral. -/
theorem numeral_decimal {i : Int} (h : 0 < i) : Numeral (decimal i) := by
  obtain ⟨n, rfl⟩ := Int.eq_ofNat_of_zero_le h.le
  exact ⟨fun c => Nat.isDigit_of_mem_toDigits (by decide) (by decide), leads_toDigits (by omega)⟩

/-- The digits of a positive number stand for this number. -/
theorem numberOf_decimal {i : Int} (h : 0 < i) : (numberOf (decimal i) : Int) = i := by
  obtain ⟨n, rfl⟩ := Int.eq_ofNat_of_zero_le h.le
  exact congrArg Int.ofNat Nat.ofDigitChars_ten_toDigits

/-- Every numeral is that of a positive number. -/
theorem exists_decimal {s : List Char} (h : Numeral s) :
    ∃ i : Int, 0 < i ∧ i = numberOf s ∧ decimal i = s := by
  obtain ⟨hdigits, hpos⟩ := toDigits_ofDigitChars h.digits h.leads
  exact ⟨numberOf s, Int.natCast_pos.mpr hpos, rfl, hdigits⟩

/-- All three lines are positive. -/
theorem LineSpan.Valid.pos {s : LineSpan} (h : s.Valid) :
    0 < s.line ∧ 0 < s.lineBegin ∧ 0 < s.lineEnd := by
  obtain ⟨hpos, hle, hend⟩ := h
  omega

/-- The converter's number for the joined lines tells their text. -/
theorem LineSpan.Valid.text_of_readInt {s s' : LineSpan} (h : s.Valid) (h' : s'.Valid)
    (hread : readInt s.text = readInt s'.text) : s.text = s'.text := by
  have hnumber : ∀ r : LineSpan, r.Valid → ∃ i, decimal i = r.text := by
    intro r hr
    obtain ⟨hline, hbegin, hend⟩ := hr.pos
    have htext : Numeral r.text := (numeral_decimal hline).append_zero
      ((numeral_decimal hbegin).append_zero (numeral_decimal hend))
    obtain ⟨i, -, -, hi⟩ := exists_decimal htext
    exact ⟨i, hi⟩
  obtain ⟨i, hi⟩ := hnumber s h
  obtain ⟨j, hj⟩ := hnumber s' h'
  have hi' := readInt_decimal i (t := []) rfl
  have hj' := readInt_decimal j (t := []) rfl
  rw [List.append_nil, hi] at hi'
  rw [List.append_nil, hj] at hj'
  rw [hi', hj'] at hread
  rw [← hi, ← hj, Option.some.inj hread]

/-! ### Lines with another cut

One lemma for each numeral that a new joint can be in. Each gives three numerals in order that
have the same text, and `exists_other_of_text` makes lines of them. -/

namespace LineSpan

variable {s s' : LineSpan}

/-- Three numerals in order are those of some lines; these are others if they differ. -/
theorem exists_other_of_text {l b e : List Char} (hl : Numeral l) (hb : Numeral b)
    (he : Numeral e) (hbl : numberOf b ≤ numberOf l) (hle : numberOf l ≤ numberOf e)
    (htext : l ++ '0' :: (b ++ '0' :: e) = s.text)
    (hne : l ≠ decimal s.line ∨ b ≠ decimal s.lineBegin) :
    ∃ s' : LineSpan, s'.Valid ∧ s'.text = s.text ∧ s' ≠ s := by
  obtain ⟨line, -, hline, rfl⟩ := exists_decimal hl
  obtain ⟨lineBegin, hpos, hbegin, rfl⟩ := exists_decimal hb
  obtain ⟨lineEnd, -, hend, rfl⟩ := exists_decimal he
  refine ⟨⟨line, lineBegin, lineEnd⟩, ⟨hpos, ?_, ?_⟩, htext, ?_⟩
  · show lineBegin ≤ line
    omega
  · show line ≤ lineEnd
    omega
  · intro heq
    subst heq
    simp at hne

/-- The digits of the lines, and how they compare. -/
structure Digits (s : LineSpan) : Prop where
  line : Numeral (decimal s.line)
  lineBegin : Numeral (decimal s.lineBegin)
  lineEnd : Numeral (decimal s.lineEnd)
  numberOf_line : (numberOf (decimal s.line) : Int) = s.line
  begin_le : numberOf (decimal s.lineBegin) ≤ numberOf (decimal s.line)
  le_end : numberOf (decimal s.line) ≤ numberOf (decimal s.lineEnd)

/-- The digits of a valid span are three numerals in order. -/
theorem Valid.toDigits (h : s.Valid) : s.Digits := by
  obtain ⟨hline, hbegin, hend⟩ := h.pos
  obtain ⟨-, hle, hle'⟩ := h
  have hl := numberOf_decimal hline
  have hb := numberOf_decimal hbegin
  have he := numberOf_decimal hend
  exact ⟨numeral_decimal hline, numeral_decimal hbegin, numeral_decimal hend, hl, by omega,
    by omega⟩

/-- What is behind a `0` of the first line can go to the last line. -/
theorem Digits.exists_other_begin (h : s.Digits) {u v : List Char}
    (hcut : (u, v) ∈ zeroCuts (decimal s.lineBegin)) :
    ∃ s' : LineSpan, s'.Valid ∧ s'.text = s.text ∧ s' ≠ s := by
  obtain ⟨hu, hv⟩ := h.lineBegin.of_zeroCuts hcut
  obtain ⟨hbegin, -⟩ := mem_zeroCuts.mp hcut
  have hle := h.begin_le
  rw [hbegin] at hle
  refine exists_other_of_text h.line hu (hv.append_zero h.lineEnd)
    ((numberOf_le_front u v).trans hle) (h.le_end.trans (numberOf_le_back v _)) ?_ (.inr ?_)
  · rw [text, hbegin]
    simp
  · rw [hbegin]
    simp

/-- A `0` of the line can end it, with what is behind as the first line. -/
theorem Digits.exists_other_line (h : s.Digits) (hline : s.LineCut) :
    ∃ s' : LineSpan, s'.Valid ∧ s'.text = s.text ∧ s' ≠ s := by
  obtain ⟨⟨u, v⟩, hcut, hle⟩ := hline
  obtain ⟨hu, hv⟩ := h.line.of_zeroCuts hcut
  obtain ⟨hline, -⟩ := mem_zeroCuts.mp hcut
  have hfront : numberOf u ≤ numberOf (decimal s.lineEnd) := by
    have hend := h.le_end
    rw [hline] at hend
    exact (numberOf_le_front u v).trans hend
  have hne : u ≠ decimal s.line := by
    rw [hline]
    simp
  rcases hle with hle | ⟨⟨v₁, w⟩, hinner, hle⟩
  · -- one cut: the old first line begins the last one
    refine exists_other_of_text hu hv (h.lineBegin.append_zero h.lineEnd) hle
      (hfront.trans (numberOf_le_back _ _)) ?_ (.inl hne)
    rw [text, hline]
    simp
  · -- two cuts: what is behind the second one does
    obtain ⟨hv₁, hw⟩ := hv.of_zeroCuts hinner
    obtain ⟨hback, -⟩ := mem_zeroCuts.mp hinner
    refine exists_other_of_text hu hv₁ (hw.append_zero (h.lineBegin.append_zero h.lineEnd)) hle
      ((hfront.trans (numberOf_le_back _ _)).trans (numberOf_le_back _ _)) ?_ (.inl hne)
    rw [text, hline]
    dsimp only at hback
    rw [hback]
    simp

/-- A `0` of the last line can be a joint in three ways. -/
theorem Digits.exists_other_end (h : s.Digits) (hend : s.EndCut) :
    ∃ s' : LineSpan, s'.Valid ∧ s'.text = s.text ∧ s' ≠ s := by
  obtain ⟨⟨u, v⟩, hcut, hle⟩ := hend
  obtain ⟨hu, hv⟩ := h.lineEnd.of_zeroCuts hcut
  obtain ⟨hend, -⟩ := mem_zeroCuts.mp hcut
  have hline := h.numberOf_line
  rcases hle with ⟨hle, hle'⟩ | ⟨hle, hle'⟩ | ⟨⟨v₁, w⟩, hinner, hle, hle'⟩
  · -- the line stays, and the first line goes on to the cut
    refine exists_other_of_text h.line (h.lineBegin.append_zero hu) hv ?_ ?_ ?_ (.inr ?_)
    · dsimp only at hle
      omega
    · dsimp only at hle'
      omega
    · rw [text, hend]
      simp
    · simp
  · -- the line goes on to the old first line
    refine exists_other_of_text (h.line.append_zero h.lineBegin) hu hv hle hle' ?_ (.inl ?_)
    · rw [text, hend]
      simp
    · simp
  · -- the line goes on to the first of two cuts
    obtain ⟨hv₁, hw⟩ := hv.of_zeroCuts hinner
    obtain ⟨hback, -⟩ := mem_zeroCuts.mp hinner
    dsimp only at hback
    refine exists_other_of_text (h.line.append_zero (h.lineBegin.append_zero hu)) hv₁ hw hle hle'
      ?_ (.inl ?_)
    · rw [text, hend, hback]
      simp
    · simp

/-- Lines with another cut share their text with others. -/
theorem Valid.exists_other (h : s.Valid) (hrecut : s.Recut) :
    ∃ s' : LineSpan, s'.Valid ∧ s'.text = s.text ∧ s' ≠ s := by
  rcases hrecut with hbegin | hline | hend
  · obtain ⟨⟨u, v⟩, hcut⟩ := List.exists_mem_of_ne_nil _ hbegin
    exact h.toDigits.exists_other_begin hcut
  · exact h.toDigits.exists_other_line hline
  · exact h.toDigits.exists_other_end hend

/-! ### Lines without another cut

The same nine cases from the other side: each of them is in one of the conditions of `Recut`,
or both joints are where they were. -/

/-- Other lines with the same text come from another cut. The two zeros that join them are
looked for in the text one after the other; each is one of the old two, or inside of a line. -/
theorem Valid.eq_or_recut (h : s.Valid) (h' : s'.Valid) (htext : s.text = s'.text) :
    s = s' ∨ s.Recut := by
  have hl := h.toDigits
  have hl' := h'.toDigits
  have hline := hl.numberOf_line
  have hline' := hl'.numberOf_line
  have hbegin_le := hl'.begin_le
  have hle_end := hl'.le_end
  unfold text at htext
  rcases append_zero_cases htext with ⟨hfirst, hrest⟩ | ⟨v, hfirst, hrest⟩ | ⟨v, hfirst, hrest⟩
  · rcases append_zero_cases hrest with ⟨hb, he⟩ | ⟨v, hb, he⟩ | ⟨v, hb, he⟩
    · left
      cases s
      cases s'
      rw [LineSpan.mk.injEq]
      exact ⟨decimal_injective hfirst, decimal_injective hb, decimal_injective he⟩
    · -- the same line, and the first line ends inside of the last one
      refine .inr (.inr (.inr ⟨(v, decimal s'.lineEnd), ?_, .inl ⟨?_, ?_⟩⟩))
      · exact mem_zeroCuts.mpr ⟨he, hl'.lineEnd.leads⟩
      · rw [← hb]
        rw [← hfirst] at hbegin_le
        omega
      · rw [← hfirst] at hle_end
        dsimp only
        omega
    · -- the first line ends inside of the old one
      have hv : Leads v := Leads.of_append (he ▸ hl'.lineEnd.leads)
      exact .inr (.inl (List.ne_nil_of_mem (mem_zeroCuts.mpr ⟨hb, hv⟩)))
  · rcases append_zero_cases hrest with ⟨hb, he⟩ | ⟨w, hb, he⟩ | ⟨w, hb, he⟩
    · -- the line takes the old first line
      refine .inr (.inr (.inr ⟨(decimal s'.lineBegin, decimal s'.lineEnd), ?_, .inr (.inl ?_)⟩))
      · exact mem_zeroCuts.mpr ⟨he, hl'.lineEnd.leads⟩
      · rw [hb, ← hfirst]
        exact ⟨hbegin_le, hle_end⟩
    · -- the line takes the old first line and a part of the last one
      have hleads := (hl'.lineBegin.append_zero hl'.lineEnd).leads
      refine .inr (.inr (.inr ⟨(w, _), mem_zeroCuts.mpr ⟨he, hleads⟩, .inr (.inr
        ⟨(decimal s'.lineBegin, decimal s'.lineEnd), mem_zeroCuts.mpr ⟨rfl, hl'.lineEnd.leads⟩,
          ?_⟩)⟩))
      rw [← hb, ← hfirst]
      exact ⟨hbegin_le, hle_end⟩
    · -- the line ends inside of the old first line
      have hw : Leads w := Leads.of_append (he ▸ (hl'.lineBegin.append_zero hl'.lineEnd).leads)
      exact .inr (.inl (List.ne_nil_of_mem (mem_zeroCuts.mpr ⟨hb, hw⟩)))
  · -- the line ends inside of the old one
    have hleads := (hl'.lineBegin.append_zero hl'.lineEnd).leads
    have hv : Leads v := Leads.of_append (hrest ▸ hleads)
    have hcut := mem_zeroCuts.mpr ⟨hfirst, hv⟩
    refine .inr (.inr (.inl ⟨_, hcut, ?_⟩))
    rcases append_zero_cases hrest with ⟨hb, -⟩ | ⟨w, hb, he⟩ | ⟨w, hb, -⟩
    · exact .inl (hb ▸ hbegin_le)
    · have hw : Leads w := Leads.of_append (he ▸ hl'.lineEnd.leads)
      exact .inr ⟨_, mem_zeroCuts.mpr ⟨hb, hw⟩, hbegin_le⟩
    · left
      rw [hb] at hbegin_le
      exact (numberOf_le_front v w).trans hbegin_le

end LineSpan

/-- **Which lines the text tells.** The number that the converter reads for the lines of a frame
determines them, whatever the other frame is, unless they have another cut; and if they have
one, there is another frame with the same text. -/
theorem scope_determines_span (t : LineTable) (location : Int) (ht : (t.span location).Valid) :
    (¬ (t.span location).Recut → ∀ (t' : LineTable) (location' : Int), (t'.span location').Valid →
        readInt (t.scope location) = readInt (t'.scope location') →
        t.span location = t'.span location') ∧
      ((t.span location).Recut → ∃ (t' : LineTable) (location' : Int), (t'.span location').Valid ∧
          t'.scope location' = t.scope location ∧ t'.span location' ≠ t.span location) := by
  constructor
  · intro hone t' location' ht' hread
    exact (ht.eq_or_recut ht' (ht.text_of_readInt ht' hread)).resolve_right hone
  · intro hrecut
    obtain ⟨s, hs, htext, hne⟩ := ht.exists_other hrecut
    exact ⟨s.table, 0, hs, htext, hne⟩

/-- Line 57 of a method from 45 to 104, and line 101 of a method from 101 to 101. -/
theorem scope_determines_span_methods :
    (∀ (t' : LineTable) (location' : Int), (t'.span location').Valid →
      readInt ((LineSpan.table ⟨57, 45, 104⟩).scope 0) = readInt (t'.scope location') →
      (LineSpan.table ⟨57, 45, 104⟩).span 0 = t'.span location') ∧
    ∃ (t' : LineTable) (location' : Int), (t'.span location').Valid ∧
      t'.scope location' = (LineSpan.table ⟨101, 101, 101⟩).scope 0 ∧
      t'.span location' ≠ (LineSpan.table ⟨101, 101, 101⟩).span 0 :=
  ⟨(scope_determines_span (LineSpan.table ⟨57, 45, 104⟩) 0 (by decide)).1 (by decide),
    (scope_determines_span (LineSpan.table ⟨101, 101, 101⟩) 0 (by decide)).2 (by decide)⟩

/-- Line 101 of a method from 101 to 101, and line 101 of a method from 1 to 10101. -/
theorem scope_shared :
    ∃ t t' : LineTable, (t.span 0).Valid ∧ (t'.span 0).Valid ∧ t.scope 0 = t'.scope 0 ∧
      t.span 0 ≠ t'.span 0 :=
  ⟨LineSpan.table ⟨101, 101, 101⟩, LineSpan.table ⟨101, 1, 10101⟩, by decide⟩

end DroidPerf
