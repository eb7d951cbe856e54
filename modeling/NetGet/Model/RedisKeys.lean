import NetGet.Model.Bytes

/-! # Redis glob patterns -/

namespace NetGet.RedisKeys

inductive ClassItem where
  | byte (b : UInt8)
  | range (lo hi : UInt8)
  deriving DecidableEq

inductive Token where
  | star
  | any
  | byte (b : UInt8)
  | cls (negate : Bool) (items : List ClassItem)
  deriving DecidableEq

/-- The loop over a class `[…]`: its items and the pattern behind it. -/
def classLoop : List ClassItem → Bytes → List ClassItem × Bytes
  | items, [] => (items, [])
  | items, 92 :: c :: rest => classLoop (items ++ [.byte c]) rest
  | items, 93 :: rest => (items, rest)
  | items, a :: 45 :: b :: rest => classLoop (items ++ [.range (min a b) (max a b)]) rest
  | items, c :: rest => classLoop (items ++ [.byte c]) rest

/-- A round takes a byte of the pattern, so that `pattern.length` rounds are enough. -/
def tokenizeLoop : ℕ → List Token → Bytes → List Token
  | 0, tokens, _ => tokens
  | _, tokens, [] => tokens
  | rounds + 1, tokens, 42 :: rest =>
    tokenizeLoop rounds (if tokens.getLast? = some .star then tokens else tokens ++ [.star]) rest
  | rounds + 1, tokens, 63 :: rest => tokenizeLoop rounds (tokens ++ [.any]) rest
  | rounds + 1, tokens, 91 :: rest =>
    let negate : Bool := rest.head? = some 94
    let (items, rest) := classLoop [] (if negate then rest.tail else rest)
    tokenizeLoop rounds (tokens ++ [.cls negate items]) rest
  | rounds + 1, tokens, 92 :: c :: rest => tokenizeLoop rounds (tokens ++ [.byte c]) rest
  | rounds + 1, tokens, c :: rest => tokenizeLoop rounds (tokens ++ [.byte c]) rest

def tokenize (pattern : Bytes) : List Token := tokenizeLoop pattern.length [] pattern

def ClassItem.hit (byte : UInt8) : ClassItem → Bool
  | .byte b => b == byte
  | .range lo hi => lo ≤ byte && byte ≤ hi

def tokenMatches (byte : UInt8) : Token → Bool
  | .star | .any => true
  | .byte b => b == byte
  | .cls negate items => items.any (·.hit byte) != negate

/-- The loop of `glob_match` on the tokens and the bytes that are left. `star` holds the tokens
behind the last star and the bytes from where it has been stretched to. -/
def globLoop (tokens : List Token) (string : Bytes) (star : Option (List Token × Bytes))
    (h : ∀ x ∈ star, tokens.length ≤ x.1.length ∧ string.length ≤ x.2.length) : Bool :=
  match string with
  | [] => tokens.all (· = .star)
  | byte :: rest =>
    if tokens.head? = some .star then
      globLoop tokens.tail (byte :: rest) (some (tokens.tail, byte :: rest)) (by rintro _ ⟨⟩; simp)
    else if tokens.head?.any (tokenMatches byte) then
      globLoop tokens.tail rest star fun x hx => by
        have := h x hx
        simp at this ⊢
        omega
    else
      match star with
      | some (behind, stretched) =>
        globLoop behind stretched.tail (some (behind, stretched.tail))
          (by rintro _ ⟨⟩; simp)
      | none => false
termination_by
  ((star.map (·.1.length)).getD (tokens.length + 1), (star.map (·.2.length)).getD 0, string.length)
decreasing_by
  · rename_i hs
    have ht : tokens.tail.length < tokens.length :=
      List.length_tail ▸ Nat.sub_one_lt_of_lt (List.length_pos_of_mem (List.mem_of_head? hs))
    cases star with
    | none => exact .left _ _ (Nat.lt_succ_of_lt ht)
    | some x => exact .left _ _ (Nat.lt_of_lt_of_le ht (h x rfl).1)
  · rename_i hm
    obtain ⟨t, hs, -⟩ := (Option.any_eq_true ..).1 hm
    have ht := List.length_pos_of_mem (List.mem_of_head? hs)
    cases star with
    | none => exact .left _ _ (by simp; omega)
    | some x => exact .right _ (.right _ (by simp))
  · have := (h _ rfl).2
    exact .right _ (.left _ _ (by simp at this ⊢; omega))

def globMatch (pattern string : Bytes) : Bool :=
  if string.isEmpty then pattern.isEmpty
  else globLoop (tokenize pattern) string none nofun

end NetGet.RedisKeys
