import DroidPerf.Argument
import DroidPerf.Lib.Tokens

/-!
# DroidPerf.ArgumentSound

`Tokenize` returns the maximal runs between the delimiters, and with it the constructor of
`Argument` the events of an option string.

The loop works on positions, the runs are about text. So the invariant of the loop is about the
rest of the string from a position on (`tokenizeLoop_from`): with the two variables as the
searches leave them, the loop adds the runs of that rest. A round takes the gap, the token and
what follows it from `exists_token` and goes on behind the token. The fuel goes down with the
rest, which also bounds the rounds by the length of the string.
-/

namespace DroidPerf

open Tokens

/-! ### Positions

What the searches return, when the string is known from the position on. -/

/-- Without such a character the search returns `npos`. -/
theorem findFirst_none {p : Char → Bool} {str : StdString} {pos : Nat}
    (h : ∀ c ∈ str.chars.drop pos, p c = false) : findFirst p str pos = npos := by
  rw [findFirst, List.findIdx?_eq_none_iff.mpr h]

/-- The search returns the position of the first such character. -/
theorem findFirst_append {p : Char → Bool} {str : StdString} {pos : Nat} {s t : List Char}
    {c : Char} (h : str.chars.drop pos = s ++ c :: t) (hs : ∀ d ∈ s, p d = false)
    (hc : p c = true) : findFirst p str pos = pos + s.length := by
  have hidx : (s ++ c :: t).findIdx? p = some s.length := by
    rw [List.findIdx?_append, List.findIdx?_eq_none_iff.mpr hs, List.findIdx?_cons, if_pos hc]
    simp
  rw [findFirst, h, hidx]

/-- Nothing is found behind the end. -/
theorem drop_npos (str : StdString) : str.chars.drop npos = [] :=
  List.drop_eq_nil_of_le (Nat.le_of_lt str.length_lt)

/-- What stands at a position that is not the end of a string. -/
theorem pos_lt {str : StdString} {pos : Nat} {s : List Char} (h : str.chars.drop pos = s)
    (hne : s ≠ []) : pos + s.length < npos := by
  have hlen := congrArg List.length h
  have hpos := List.length_pos_of_ne_nil hne
  have hfits := str.length_lt
  rw [List.length_drop] at hlen
  omega

/-! ### The loop

The states of the loop are those in which `lastPos` and `pos` have just been searched for, from
a position that the loop itself does not keep. -/

/-- The end of a token: the next delimiter, or `npos` at the end of the string. -/
theorem findFirstOf_token {str : StdString} {delimiters token rest : List Char} {lastPos : Nat}
    (h : str.chars.drop lastPos = token ++ rest)
    (htoken : ∀ c ∈ token, delimiters.contains c = false)
    (hrest : ∀ c ∈ rest.head?, delimiters.contains c = true) :
    findFirstOf str delimiters lastPos = npos ∧ rest = [] ∨
      findFirstOf str delimiters lastPos = lastPos + token.length ∧ rest ≠ [] := by
  cases rest with
  | nil =>
      refine .inl ⟨findFirst_none ?_, rfl⟩
      rw [h, List.append_nil]
      exact htoken
  | cons c rest => exact .inr ⟨findFirst_append h htoken (hrest c rfl), List.cons_ne_nil _ _⟩

/-- The body of the loop adds the token between the two positions and goes on behind it. -/
theorem tokenizeRound_token {str : StdString} {delimiters token rest : List Char}
    {lastPos : Nat} (tokens : List (List Char)) (hne : token ≠ [])
    (h : str.chars.drop lastPos = token ++ rest)
    (htoken : ∀ c ∈ token, delimiters.contains c = false)
    (hrest : ∀ c ∈ rest.head?, delimiters.contains c = true) :
    ∃ next, str.chars.drop next = rest ∧
      tokenizeRound str delimiters ⟨lastPos, findFirstOf str delimiters lastPos, tokens⟩ =
        .ok ⟨findFirstNotOf str delimiters next,
          findFirstOf str delimiters (findFirstNotOf str delimiters next), tokens ++ [token]⟩ := by
  have hlt := pos_lt h (by simp [hne])
  have hlen := congrArg List.length h
  rw [List.length_drop, List.length_append] at hlen
  have hpositive := List.length_pos_of_ne_nil hne
  have hin : ¬str.chars.length < lastPos := by omega
  -- the token is what `substr` returns, whichever way its length comes out
  have hround (pos : Nat) (htake : (token ++ rest).take (sub64 pos lastPos) = token) :
      tokenizeRound str delimiters ⟨lastPos, pos, tokens⟩ =
        .ok ⟨findFirstNotOf str delimiters pos,
          findFirstOf str delimiters (findFirstNotOf str delimiters pos), tokens ++ [token]⟩ := by
    simp only [tokenizeRound, substr, if_neg hin, h, htake, ok_bind]
    rfl
  unfold npos at hlt
  rw [List.length_append] at hlt
  rcases findFirstOf_token h htoken hrest with ⟨hpos, hend⟩ | ⟨hpos, -⟩
  · -- `npos - lastPos` is more than what is left
    refine ⟨npos, ?_, ?_⟩
    · rw [drop_npos, hend]
    · rw [hpos]
      refine hround npos (List.take_of_length_le ?_ |>.trans (by rw [hend, List.append_nil]))
      rw [List.length_append, sub64, npos]
      omega
  · refine ⟨lastPos + token.length, ?_, ?_⟩
    · rw [← List.drop_drop, h, List.drop_left]
    · rw [hpos]
      refine hround _ ?_
      have hsub : sub64 (lastPos + token.length) lastPos = token.length := by
        rw [sub64]
        omega
      rw [hsub, List.take_left]

/-- Without a token the loop ends. -/
theorem tokenizeLoop_done {str : StdString} {delimiters : List Char} {start : Nat}
    (h : ∀ c ∈ str.chars.drop start, delimiters.contains c = true) (fuel : Nat)
    (tokens : List (List Char)) :
    tokenizeLoop str delimiters fuel
        ⟨findFirstNotOf str delimiters start,
          findFirstOf str delimiters (findFirstNotOf str delimiters start), tokens⟩ =
      .ok ⟨npos, npos, tokens⟩ := by
  have hlast : findFirstNotOf str delimiters start = npos :=
    findFirst_none fun c hc => by rw [h c hc, Bool.not_true]
  have hpos : findFirstOf str delimiters npos = npos :=
    findFirst_none fun c hc => by simp [drop_npos] at hc
  rw [hlast, hpos, tokenizeLoop.eq_def]
  exact if_neg (by simp)

/-- From a position on, the loop adds the tokens of the rest of the string, in at most as many
rounds as there are characters. -/
theorem tokenizeLoop_from (str : StdString) (delimiters : List Char) {fuel start : Nat}
    (hfuel : (str.chars.drop start).length ≤ fuel) (tokens : List (List Char)) :
    ∃ runs, tokenizeLoop str delimiters fuel
        ⟨findFirstNotOf str delimiters start,
          findFirstOf str delimiters (findFirstNotOf str delimiters start), tokens⟩ =
        .ok ⟨npos, npos, tokens ++ runs⟩ ∧
      MaximalRuns (fun c => delimiters.contains c) (str.chars.drop start) runs := by
  induction fuel generalizing start tokens with
  | zero =>
      have hnil := List.length_eq_zero_iff.mp (Nat.le_zero.mp hfuel)
      have hall : ∀ c ∈ str.chars.drop start, delimiters.contains c = true := by simp [hnil]
      refine ⟨[], ?_, .none hall⟩
      rw [List.append_nil]
      exact tokenizeLoop_done hall 0 tokens
  | succ fuel ih =>
      rcases exists_token (fun c => delimiters.contains c) (str.chars.drop start) with
        hall | ⟨gap, token, rest, hsplit, hgap, hne, htoken, hrest⟩
      · refine ⟨[], ?_, .none hall⟩
        rw [List.append_nil]
        exact tokenizeLoop_done hall _ tokens
      · obtain ⟨c, t, rfl⟩ := List.exists_cons_of_ne_nil hne
        have hlast : findFirstNotOf str delimiters start = start + gap.length :=
          findFirst_append hsplit (fun d hd => by rw [hgap d hd, Bool.not_true])
            (by rw [htoken c List.mem_cons_self, Bool.not_false])
        have hdrop : str.chars.drop (start + gap.length) = (c :: t) ++ rest := by
          rw [← List.drop_drop, hsplit, List.drop_left]
        have hlt := pos_lt hdrop (by simp)
        obtain ⟨next, hnext, hround⟩ :=
          tokenizeRound_token tokens hne hdrop htoken hrest
        have hshorter : (str.chars.drop next).length ≤ fuel := by
          rw [hsplit, List.length_append, List.length_append, List.length_cons] at hfuel
          rw [hnext]
          omega
        obtain ⟨runs, hloop, hruns⟩ := ih hshorter (tokens ++ [c :: t])
        refine ⟨(c :: t) :: runs, ?_, ?_⟩
        · -- the loop does not end here, since a token starts at `lastPos`
          have hgo : start + gap.length ≠ npos := by omega
          rw [hlast, tokenizeLoop]
          simp only [hgo, ne_eq, not_false_eq_true, or_true, if_true, hround, ok_bind, hloop,
            List.append_assoc, List.singleton_append]
        · rw [hnext] at hruns
          rw [hsplit]
          exact .token hgap hne htoken hrest hruns

/-- `Tokenize` terminates and adds the maximal runs. -/
theorem Argument.tokenize_runs (str : StdString) (tokens : List (List Char))
    (delimiters : List Char) :
    ∃ runs, Argument.tokenize str tokens delimiters = .ok (tokens ++ runs) ∧
      MaximalRuns (fun c => delimiters.contains c) str.chars runs := by
  have hfuel : (str.chars.drop 0).length ≤ str.chars.length := by rw [List.drop_zero]
  obtain ⟨runs, hloop, hruns⟩ := tokenizeLoop_from str delimiters hfuel tokens
  refine ⟨runs, ?_, hruns⟩
  simp only [Argument.tokenize, hloop, ok_bind]
  rfl

/-! ### The events of an option string

The two models of the loop, by position and by splitting at the commas, agree; the callers'
proofs use the second. -/

/-- The constructor finds the tokens between the commas. -/
theorem argument_new_eq (arg : StdString) :
    Argument.new arg = .ok ⟨tokens (fun c => [','].contains c) arg.chars⟩ := by
  obtain ⟨runs, htokenize, hruns⟩ := Argument.tokenize_runs arg [] [',']
  rw [Argument.new, htokenize, ok_bind, List.nil_append, ← hruns.eq_tokens]
  rfl

/-- Splitting at the commas and leaving out what is empty gives the runs. -/
theorem tokenize_eq_tokens (s : List Char) :
    tokenize ',' s = tokens (fun c => [','].contains c) s := by
  have hcomma : (fun c => [','].contains c) = fun c : Char => c == ',' := by
    funext c
    simp only [List.contains_cons, List.contains_nil, Bool.or_false]
  rw [hcomma]
  refine List.filter_congr fun token _ => ?_
  cases token <;> simp

/-- Loading the agent reads the option string through `Argument`. -/
theorem jvmInit_eq (arg : StdString) (s : AttachState) :
    jvmInit arg.chars s = Argument.new arg >>= fun a => profilerInit s a.perfEventList := by
  rw [argument_new_eq, ← tokenize_eq_tokens]
  rfl

/-- Event strings, each with the number of commas behind it, after a number of leading
commas. -/
def optionText (leading : Nat) (parts : List (List Char × Nat)) : List Char :=
  List.replicate leading ',' ++ parts.flatMap fun part => part.1 ++ List.replicate part.2 ','

/-- The text of the first event and of the others. -/
theorem optionText_cons (leading : Nat) (part : List Char × Nat)
    (parts : List (List Char × Nat)) :
    optionText leading (part :: parts) =
      List.replicate leading ',' ++ (part.1 ++ optionText part.2 parts) := by
  simp [optionText]

/-- The runs of such a text are the events, if there is a comma between each two of them. -/
theorem optionText_runs {parts : List (List Char × Nat)}
    (hevents : ∀ part ∈ parts, part.1 ≠ [] ∧ ',' ∉ part.1)
    (hcommas : ∀ part ∈ parts.dropLast, 0 < part.2) (leading : Nat) :
    MaximalRuns (fun c => [','].contains c) (optionText leading parts) (parts.map Prod.fst) := by
  have hgap (n : Nat) : ∀ c ∈ List.replicate n ',', [','].contains c = true := by
    intro c hc
    rw [List.eq_of_mem_replicate hc]
    rfl
  induction parts generalizing leading with
  | nil =>
      refine .none ?_
      rw [optionText, List.flatMap_nil, List.append_nil]
      exact hgap leading
  | cons part parts ih =>
      obtain ⟨⟨hne, hcomma⟩, hevents⟩ := List.forall_mem_cons.mp hevents
      have hrest : ∀ c ∈ (optionText part.2 parts).head?, [','].contains c = true := by
        intro c hc
        cases parts with
        | nil =>
            rw [optionText, List.flatMap_nil, List.append_nil] at hc
            exact hgap part.2 c (List.mem_of_mem_head? hc)
        | cons next parts =>
            -- another event follows, so there is a comma
            obtain ⟨n, hn⟩ := Nat.exists_eq_succ_of_ne_zero
              (Nat.ne_of_gt (hcommas part List.mem_cons_self))
            rw [optionText, hn, List.replicate_succ, List.cons_append] at hc
            rw [← Option.some.inj hc]
            rfl
      have hcommas : ∀ part ∈ parts.dropLast, 0 < part.2 := by
        intro q hq
        cases parts with
        | nil => cases hq
        | cons next parts => exact hcommas q (List.mem_cons_of_mem _ hq)
      rw [optionText_cons, List.map_cons]
      refine .token (hgap leading) hne (fun c hc => ?_) hrest (ih hevents hcommas part.2)
      simpa using fun heq : c = ',' => hcomma (heq ▸ hc)

/-- **Tokens.** `Tokenize` terminates on every string and adds the maximal runs without a
delimiter, in order, so that nothing but delimiters gets lost; and `Argument` lists the events
of an option string that separates them by commas. -/
theorem tokenize_spec :
    (∀ (str : StdString) (tokens : List (List Char)) (delimiters : List Char),
      ∃ runs, Argument.tokenize str tokens delimiters = .ok (tokens ++ runs) ∧
        MaximalRuns (fun c => delimiters.contains c) str.chars runs ∧
        (∀ token ∈ runs, token ≠ []) ∧
        runs.flatten = str.chars.filter fun c => !delimiters.contains c) ∧
      ∀ (leading : Nat) (parts : List (List Char × Nat)) (arg : StdString),
        (∀ part ∈ parts, part.1 ≠ [] ∧ ',' ∉ part.1) → (∀ part ∈ parts.dropLast, 0 < part.2) →
        arg.chars = optionText leading parts → Argument.new arg = .ok ⟨parts.map Prod.fst⟩ := by
  refine ⟨fun str tokens delimiters => ?_, fun leading parts arg hevents hcommas harg => ?_⟩
  · obtain ⟨runs, htokenize, hruns⟩ := Argument.tokenize_runs str tokens delimiters
    exact ⟨runs, htokenize, hruns, hruns.ne_nil, hruns.flatten⟩
  · rw [argument_new_eq, harg, ← (optionText_runs hevents hcommas leading).eq_tokens]

/-- Two events with a comma in front, two between them and one at the end. -/
theorem tokenize_spec_commas :
    Argument.new ⟨",CPU::CYCLES,,MEM::LOADS@5,".toList, by decide⟩ =
      .ok ⟨["CPU::CYCLES".toList, "MEM::LOADS@5".toList]⟩ :=
  tokenize_spec.2 1 [("CPU::CYCLES".toList, 2), ("MEM::LOADS@5".toList, 1)] _ (by decide)
    (by decide) rfl

end DroidPerf
