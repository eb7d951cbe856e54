import Mathlib.Algebra.Group.Nat.Defs

/-! # Identifiers, clocks and characters -/

namespace NetGet

abbrev ServerId := ℕ
abbrev ClientId := ℕ
abbrev ConnectionId := ℕ
abbrev TaskId := ℕ
abbrev PipeId := ℕ

/-- A spawned future, named by the number of its spawn. -/
abbrev JoinHandle := ℕ

/-- A point of the monotonic clock, in nanoseconds. -/
abbrev Instant := ℕ

def nanosPerSec : ℕ := 10 ^ 9
def nanosPerMilli : ℕ := 10 ^ 6

/-- What `Instant::now()` and `SystemTime::now()` return, in nanoseconds. -/
structure Clock where
  instant : Instant
  system : ℕ
  deriving DecidableEq

/-- Both clocks `secs` seconds after their start. -/
def Clock.atSecs (secs : ℕ) : Clock :=
  { instant := secs * nanosPerSec, system := secs * nanosPerSec }

/-- `now.duration_since(earlier).as_secs()`, which is zero when `earlier` is later. -/
def Clock.secsSince (clock : Clock) (earlier : Instant) : ℕ :=
  (clock.instant - earlier) / nanosPerSec

def Clock.nowUnixMs (clock : Clock) : ℕ := clock.system / nanosPerMilli % 2 ^ 64

/-- `char::is_control`. -/
def isControl (c : Char) : Bool := c.toNat < 32 || 127 ≤ c.toNat && c.toNat < 160

end NetGet
