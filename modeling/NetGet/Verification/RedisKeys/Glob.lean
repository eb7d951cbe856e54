import NetGet.Model.RedisKeys

/-! # The matcher of glob patterns

The last star is the only place to come back to: what an earlier star could be stretched over,
the last one can be stretched over as well. -/

namespace NetGet.RedisKeys

open List

variable {tokens : List Token} {byte : UInt8}

def ClassItem.Has (byte : UInt8) : ClassItem → Prop
  | .byte b => b = byte
  | .range lo hi => lo ≤ byte ∧ byte ≤ hi

def Token.Accepts (byte : UInt8) : Token → Prop
  | .star | .any => True
  | .byte b => b = byte
  | .cls negate items => (∃ item ∈ items, item.Has byte) ↔ negate = false

/-- The string is split among the tokens: any run of bytes for a star, a byte for another. -/
def Matches : List Token → Bytes → Prop
  | [], string => string = []
  | .star :: tokens, string => ∃ run rest, string = run ++ rest ∧ Matches tokens rest
  | token :: tokens, string =>
    ∃ byte rest, string = byte :: rest ∧ token.Accepts byte ∧ Matches tokens rest

theorem tokenMatches_iff (token : Token) : tokenMatches byte token ↔ token.Accepts byte := by
  cases token with
  | star | any => simp [tokenMatches, Token.Accepts]
  | byte b => simp [tokenMatches, Token.Accepts]
  | cls negate items =>
    have hi : ∀ item : ClassItem, item.Has byte ↔ item.hit byte = true := by
      rintro (b | ⟨lo, hi⟩) <;> simp [ClassItem.hit, ClassItem.Has]
    cases negate <;> simp [tokenMatches, Token.Accepts, hi]

theorem matches_star {string : Bytes} :
    Matches (.star :: tokens) string ↔ ∃ s, s <:+ string ∧ Matches tokens s := by
  constructor
  · rintro ⟨run, s, rfl, h⟩
    exact ⟨s, suffix_append run s, h⟩
  · rintro ⟨s, ⟨run, rfl⟩, h⟩
    exact ⟨run, s, rfl, h⟩

theorem matches_cons {token : Token} (ht : token ≠ .star) {string : Bytes} :
    Matches (token :: tokens) string ↔
      string.head?.any (tokenMatches · token) ∧ Matches tokens string.tail := by
  cases token <;> cases string <;> simp_all [Matches, tokenMatches_iff, and_assoc]

theorem matches_nil : Matches tokens [] ↔ tokens.all (· = .star) := by
  induction tokens with
  | nil => simp [Matches]
  | cons token tokens ih =>
    by_cases ht : token = .star
    · simp [ht, matches_star, ih]
    · simp [ht, matches_cons ht]

/-- Tokens other than stars take a byte each. -/
theorem Matches.behind {front : List Token} {string : Bytes} (hf : Token.star ∉ front)
    (h : Matches (front ++ tokens) string) : Matches tokens (string.drop front.length) := by
  induction front generalizing string with
  | nil => exact h
  | cons token front ih =>
    obtain ⟨ht, hf⟩ := not_or.1 (mt mem_cons.2 hf)
    rw [length_cons, ← drop_tail]
    exact ih hf ((matches_cons (Ne.symm ht)).1 h).2

theorem not_matches {rest : Bytes} (hs : ¬ tokens.head? = some .star)
    (hm : ¬ tokens.head?.any (tokenMatches byte)) : ¬ Matches tokens (byte :: rest) := by
  cases tokens with
  | nil => simp [Matches]
  | cons token tokens => simp_all [matches_cons]

/-- Since the last star the loop has passed as many bytes as tokens, and no star. -/
def Passed (tokens : List Token) (string : Bytes) (x : List Token × Bytes) : Prop :=
  ∃ front run, x.1 = front ++ tokens ∧ x.2 = run ++ string ∧ front.length = run.length ∧
    .star ∉ front

/-- What the last star could still be stretched over, the tokens left match behind. -/
theorem Passed.exists_suffix {string s : Bytes} {x : List Token × Bytes}
    (hp : Passed tokens string x) (hs : s <:+ x.2.tail) (h : Matches x.1 s) :
    ∃ s', s' <:+ string ∧ Matches tokens s' := by
  obtain ⟨front, run, h1, h2, hl, hf⟩ := hp
  rw [h1] at h
  refine ⟨_, ?_, h.behind hf⟩
  have hs' := hs.trans (tail_suffix _)
  refine suffix_of_suffix_length_le ((drop_suffix _ _).trans hs') (h2 ▸ suffix_append run string) ?_
  have hle := hs'.length_le
  rw [h2, length_append] at hle
  rw [length_drop]
  omega

theorem Passed.refl (tokens : List Token) (string : Bytes) :
    Passed tokens string (tokens, string) :=
  ⟨[], [], rfl, rfl, rfl, not_mem_nil⟩

theorem or_exists_suffix_tail {P : Bytes → Prop} (l : Bytes) :
    (P l ∨ ∃ s, s <:+ l.tail ∧ P s) ↔ ∃ s, s <:+ l ∧ P s := by
  cases l with
  | nil => simp
  | cons a l => simp [suffix_cons_iff, or_and_right, exists_or]

/-- The loop finds a match from here on, or one with the last star stretched further. -/
theorem globLoop_iff (string : Bytes) (star : Option (List Token × Bytes))
    (h : ∀ x ∈ star, tokens.length ≤ x.1.length ∧ string.length ≤ x.2.length)
    (hp : ∀ x ∈ star, Passed tokens string x) : globLoop tokens string star h ↔
      Matches tokens string ∨ ∃ x ∈ star, ∃ s, s <:+ x.2.tail ∧ Matches x.1 s := by
  fun_induction globLoop tokens string star h with
  | case1 tokens star =>
    rw [← matches_nil]
    refine ⟨.inl, ?_⟩
    rintro (hm | ⟨x, hx, s, hs, hm⟩)
    · exact hm
    · obtain ⟨s', hs', hm'⟩ := (hp x hx).exists_suffix hs hm
      rwa [← suffix_nil.1 hs']
  | case2 tokens star byte rest h hs _ ih =>
    rw [ih (by rintro _ ⟨⟩; exact .refl ..)]
    obtain ⟨tokens, rfl⟩ := head?_eq_some_iff.1 hs
    -- the new star takes over from the one before
    have hm : (∃ x ∈ star, ∃ s, s <:+ x.2.tail ∧ Matches x.1 s) →
        Matches (.star :: tokens) (byte :: rest) := by
      rintro ⟨x, hx, s, hs, hm⟩
      obtain ⟨s', hs', hm'⟩ := (hp x hx).exists_suffix hs hm
      obtain ⟨s'', hs'', hm''⟩ := matches_star.1 hm'
      exact matches_star.2 ⟨s'', hs''.trans hs', hm''⟩
    rw [or_iff_left_of_imp hm, matches_star, ← or_exists_suffix_tail]
    simp
  | case3 tokens star byte rest h hs hm _ ih =>
    obtain ⟨token, ht, hb⟩ := (Option.any_eq_true ..).1 hm
    obtain ⟨tokens, rfl⟩ := head?_eq_some_iff.1 ht
    have hne : token ≠ .star := fun h => hs (congrArg some h)
    rw [ih, matches_cons hne]
    · simp [hb]
    · intro x hx
      obtain ⟨front, run, h1, h2, hl, hf⟩ := hp x hx
      exact ⟨front ++ [token], run ++ [byte], by simp [h1], by simp [h2], by simp [hl],
        by simp [hf, hne.symm]⟩
  | case4 tokens byte rest hs hm behind stretched h _ ih =>
    rw [ih (by rintro _ ⟨⟩; exact .refl ..)]
    simp [not_matches hs hm, or_exists_suffix_tail]
  | case5 tokens byte rest hs hm h => simp [not_matches hs hm]

/-- A string matches by its tokens, but the empty one only the empty pattern. -/
theorem globMatch_iff (pattern string : Bytes) : globMatch pattern string ↔
    if string = [] then pattern = [] else Matches (tokenize pattern) string := by
  unfold globMatch
  split
  · simp_all
  · simp_all [globLoop_iff]

end NetGet.RedisKeys
