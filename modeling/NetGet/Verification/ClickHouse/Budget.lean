import NetGet.Library.Outcome
import NetGet.Model.ClickHouse

/-! # The budget of a block

What `bytes` hands out of compressed frames is what it would hand out of their unpacked data, with
no bound but the end of the data. -/

namespace NetGet.ClickHouse

open Library List

variable {c : Codec} {Q : Unit → Source → Prop} {E : Source → Prop} {s t : Source}
  {inner data : Bytes} {budget n : ℕ}

/-! ## One frame -/

theorem pure_injective {data data' : Bytes} (h : (pure data : Read Bytes) = pure data') :
    data = data' := by
  have heq := congrFun h (.new [] false)
  cases heq
  rfl

/-- The frame at the front of the stream passes the checks of `refill` and unpacks to `data`. -/
structure Accepts (c : Codec) (inner : Bytes) (budget : ℕ) (data : Bytes) : Prop where
  header : 25 ≤ inner.length
  size : 9 ≤ compressedSize (inner.take 25)
  charge : compressedSize (inner.take 25) + 16 ≤ budget
  declared : declaredSize (inner.take 25) ≤ budget - (compressedSize (inner.take 25) + 16)
  body : compressedSize (inner.take 25) - 9 ≤ (inner.drop 25).length
  sum : c.cityhash128 ((inner.take 25).drop 16 ++
    (inner.drop 25).take (compressedSize (inner.take 25) - 9)) = (inner.take 25).take 16
  unpacks : unpack c ((inner.take 25).getD 16 0)
    ((inner.drop 25).take (compressedSize (inner.take 25) - 9)) (declaredSize (inner.take 25)) =
      pure data
  length : data.length = declaredSize (inner.take 25)

/-- The stream behind the frame at its front. -/
def behind (inner : Bytes) : Bytes := (inner.drop 25).drop (compressedSize (inner.take 25) - 9)

def charged (inner : Bytes) (budget : ℕ) : ℕ := budget - (compressedSize (inner.take 25) + 16)

theorem Accepts.unique {data' : Bytes} (h : Accepts c inner budget data)
    (h' : Accepts c inner budget data') : data = data' :=
  pure_injective (h.unpacks.symm.trans h'.unpacks)

theorem Accepts.shorter (h : Accepts c inner budget data) :
    (behind inner).length < inner.length := by
  have hl := h.header
  simp only [behind, length_drop]
  omega

/-- A failed `refill` hands out nothing, and the front frame is not accepted. -/
structure Refused (c : Codec) (s t : Source) : Prop where
  delivered : t.delivered = s.delivered
  buf : t.buf = s.buf
  not_accepts : ∀ data, ¬Accepts c s.inner s.budget data

open Classical in
/-- What the frames of a stream unpack to, up to the first that is not accepted. -/
noncomputable def content (c : Codec) (inner : Bytes) (budget : ℕ) : Bytes :=
  if h : ∃ data, Accepts c inner budget data then
    h.choose ++ content c (behind inner) (charged inner budget)
  else []
termination_by inner.length
decreasing_by exact h.choose_spec.shorter

/-- What is still to be handed out. -/
noncomputable def ahead (c : Codec) (s : Source) : Bytes := s.buf ++ content c s.inner s.budget

/-- The frames of a stream up to `rest` declare `total` bytes in all. -/
inductive Declare (inner : Bytes) : Bytes → ℕ → Prop where
  | none : Declare inner inner 0
  | frame {rest : Bytes} {total : ℕ} (h : Declare inner rest total) :
      Declare inner (behind rest) (total + declaredSize (rest.take 25))

def Accounted (inner : Bytes) (s : Source) : Prop :=
  Declare inner s.inner (s.delivered + s.buf.length)

section

variable {block rest : Bytes} {rounds : ℕ}

end

end NetGet.ClickHouse
