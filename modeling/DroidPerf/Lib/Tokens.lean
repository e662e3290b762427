import Mathlib.Data.List.TakeWhile

/-!
# Tokens

A sequence with separators in it, and the maximal runs between them.

`MaximalRuns` says what the tokens of a sequence are, and `tokens` computes them; that the two
agree is `MaximalRuns.eq_tokens`, so a sequence has its tokens in one way only. A program that
walks over a string and cuts it is compared with `MaximalRuns`, token by token.
-/

namespace Tokens

variable {α : Type} {p : α → Bool}

/-- The tokens of a sequence: the maximal runs without a separator, in order. Separators
may stand before each token, and one stands behind it unless the sequence ends there. -/
inductive MaximalRuns (p : α → Bool) : List α → List (List α) → Prop
  | none {gap : List α} : (∀ c ∈ gap, p c = true) → MaximalRuns p gap []
  | token {gap token rest : List α} {tokens : List (List α)} :
      (∀ c ∈ gap, p c = true) → token ≠ [] → (∀ c ∈ token, p c = false) →
      (∀ c ∈ rest.head?, p c = true) → MaximalRuns p rest tokens →
      MaximalRuns p (gap ++ (token ++ rest)) (token :: tokens)

/-- A sequence falls into separators, a token and what follows the token, unless it has only
separators. -/
theorem exists_token (p : α → Bool) (s : List α) :
    (∀ c ∈ s, p c = true) ∨
      ∃ gap token rest, s = gap ++ (token ++ rest) ∧ (∀ c ∈ gap, p c = true) ∧ token ≠ [] ∧
        (∀ c ∈ token, p c = false) ∧ ∀ c ∈ rest.head?, p c = true := by
  by_cases hall : ∀ c ∈ s, p c = true
  · exact .inl hall
  have hnonempty : s.dropWhile p ≠ [] := fun h => hall (List.dropWhile_eq_nil_iff.mp h)
  obtain ⟨c, t, ht⟩ := List.exists_cons_of_ne_nil hnonempty
  have hc : p c = false := by
    have hhead := List.head?_dropWhile_not p s
    rw [ht] at hhead
    simpa using hhead
  refine .inr ⟨s.takeWhile p, (s.dropWhile p).takeWhile fun c => !p c,
    (s.dropWhile p).dropWhile fun c => !p c, ?_, fun c => List.mem_takeWhile_imp, ?_, ?_, ?_⟩
  · rw [List.takeWhile_append_dropWhile, List.takeWhile_append_dropWhile]
  · rw [ht, List.takeWhile_cons_of_pos (by simp [hc])]
    exact List.cons_ne_nil _ _
  · intro d hd
    simpa using List.mem_takeWhile_imp hd
  · intro d hd
    have hhead := List.head?_dropWhile_not (fun c => !p c) (s.dropWhile p)
    rw [Option.mem_def.mp hd] at hhead
    simpa using hhead

/-- The tokens, as a function. -/
def tokens (p : α → Bool) (s : List α) : List (List α) :=
  (s.splitOnP p).filter fun token => !token.isEmpty

/-- A separator in front is skipped. -/
theorem tokens_cons_of_pos {c : α} (hc : p c = true) (s : List α) :
    tokens p (c :: s) = tokens p s := by
  unfold tokens
  have hsplit := List.splitOnP_append_cons (p := p) [] s hc
  rw [List.nil_append, List.splitOnP_nil, List.singleton_append] at hsplit
  rw [hsplit, List.filter_cons_of_neg (by simp)]

/-- Separators in front are skipped. -/
theorem tokens_gap {gap : List α} (hgap : ∀ c ∈ gap, p c = true) (s : List α) :
    tokens p (gap ++ s) = tokens p s := by
  induction gap with
  | nil => rfl
  | cons c gap ih =>
      obtain ⟨hc, hgap⟩ := List.forall_mem_cons.mp hgap
      rw [List.cons_append, tokens_cons_of_pos hc, ih hgap]

/-- Nothing has no tokens. -/
theorem tokens_nil : tokens p [] = [] := rfl

/-- A run that ends at a separator or at the end is the first token. -/
theorem tokens_run {token rest : List α} (hne : token ≠ []) (htoken : ∀ c ∈ token, p c = false)
    (hrest : ∀ c ∈ rest.head?, p c = true) : tokens p (token ++ rest) = token :: tokens p rest := by
  cases rest with
  | nil =>
      unfold tokens
      rw [List.append_nil, List.splitOnP_eq_singleton htoken,
        List.filter_cons_of_pos (by simpa using hne)]
      rfl
  | cons sep rest =>
      have hsep : p sep = true := hrest sep rfl
      rw [tokens_cons_of_pos hsep]
      unfold tokens
      rw [List.splitOnP_append_cons token rest hsep, List.splitOnP_eq_singleton htoken,
        List.singleton_append, List.filter_cons_of_pos (by simpa using hne)]

namespace MaximalRuns

variable {s : List α} {ts : List (List α)}

/-- **The tokens are determined by the sequence.** -/
theorem eq_tokens (h : MaximalRuns p s ts) : ts = tokens p s := by
  induction h with
  | none hgap =>
      have hall := tokens_gap hgap []
      rw [List.append_nil, tokens_nil] at hall
      exact hall.symm
  | token hgap hne htoken hrest _ ih => rw [tokens_gap hgap, tokens_run hne htoken hrest, ih]

/-- No token is empty. -/
theorem ne_nil (h : MaximalRuns p s ts) : ∀ token ∈ ts, token ≠ [] := by
  induction h with
  | none _ => simp
  | token _ hne _ _ _ ih => exact List.forall_mem_cons.mpr ⟨hne, ih⟩

/-- Everything but the separators is in the tokens, once and in order. -/
theorem flatten (h : MaximalRuns p s ts) : ts.flatten = s.filter fun c => !p c := by
  have hgaps : ∀ gap : List α, (∀ c ∈ gap, p c = true) → gap.filter (fun c => !p c) = [] :=
    fun gap hgap => List.filter_eq_nil_iff.mpr fun c hc => by simp [hgap c hc]
  induction h with
  | none hgap => exact (hgaps _ hgap).symm
  | @token gap token rest _ hgap _ htoken _ _ ih =>
      have hkeep : token.filter (fun c => !p c) = token :=
        List.filter_eq_self.mpr fun c hc => by simp [htoken c hc]
      rw [List.flatten_cons, ih, List.filter_append, List.filter_append, hgaps gap hgap, hkeep,
        List.nil_append]

end MaximalRuns

end Tokens
