import Collective.Link.Frame

/-!
# Frames in runs

A byte string need not be written out where a byte is repeated. `Runs` keeps the byte and how often
it stands there, so that also frames of some billions of bytes can be held. They are encoded and
decoded as the bytes that they stand for: `bytes_encode` and `bytes_decode` say so.
-/

namespace Collective

/-- A byte and how often it is repeated. -/
structure Run where
  byte : UInt8
  count : Nat
  deriving DecidableEq, Repr

/-- A byte string as its runs, in order. -/
abbrev Runs := List Run

namespace Runs

/-- The bytes, one by one. -/
def bytes (runs : Runs) : Bytes := runs.flatMap fun run => List.replicate run.count run.byte

/-- Every byte as a run by itself. -/
def ofBytes (bytes : Bytes) : Runs := bytes.map fun b => ⟨b, 1⟩

/-- The number of bytes. -/
def size : Runs → Nat
  | [] => 0
  | run :: runs => run.count + size runs

/-- The first bytes. -/
def takeBytes (n : Nat) : Runs → Runs
  | [] => []
  | run :: runs =>
    if n ≤ run.count then [{ run with count := n }] else run :: takeBytes (n - run.count) runs

/-- The bytes behind the first ones. -/
def dropBytes (n : Nat) : Runs → Runs
  | [] => []
  | run :: runs =>
    if n < run.count then { run with count := run.count - n } :: runs
    else dropBytes (n - run.count) runs

@[simp] theorem bytes_nil : bytes [] = [] := rfl

@[simp] theorem bytes_cons (run : Run) (runs : Runs) :
    bytes (run :: runs) = List.replicate run.count run.byte ++ bytes runs := rfl

@[simp] theorem bytes_append (runs more : Runs) : bytes (runs ++ more) = bytes runs ++ bytes more :=
  List.flatMap_append

@[simp] theorem bytes_ofBytes (b : Bytes) : bytes (ofBytes b) = b := by
  induction b with
  | nil => rfl
  | cons first rest ih => exact congrArg (first :: ·) ih

theorem size_eq (runs : Runs) : size runs = (bytes runs).length := by
  induction runs with
  | nil => rfl
  | cons run runs ih => rw [size, ih, bytes_cons, List.length_append, List.length_replicate]

theorem bytes_takeBytes (n : Nat) (runs : Runs) :
    bytes (takeBytes n runs) = (bytes runs).take n := by
  induction runs generalizing n with
  | nil => simp [takeBytes]
  | cons run runs ih =>
    rw [takeBytes, bytes_cons, List.take_append, List.length_replicate, List.take_replicate]
    split
    · next hle => simp [Nat.min_eq_left hle, Nat.sub_eq_zero_of_le hle]
    · next hlt => rw [bytes_cons, ih, Nat.min_eq_right (Nat.le_of_not_le hlt)]

theorem bytes_dropBytes (n : Nat) (runs : Runs) :
    bytes (dropBytes n runs) = (bytes runs).drop n := by
  induction runs generalizing n with
  | nil => simp [dropBytes]
  | cons run runs ih =>
    rw [dropBytes, bytes_cons, List.drop_append, List.length_replicate, List.drop_replicate]
    split
    · next hlt => simp [Nat.sub_eq_zero_of_le (Nat.le_of_lt hlt)]
    · next hle => simp [ih, Nat.sub_eq_zero_of_le (Nat.not_lt.1 hle)]

end Runs

namespace Frame

open Runs

/-- The runs that send a frame. -/
def encodeRuns (max : Nat) (content : Runs) : Except Oversize Runs :=
  if max < size content then .error ⟨size content, max⟩
  else .ok (ofBytes (Bytes.ofNat lengthWidth (size content)) ++ content)

/-- Takes a frame off the front of a buffer of runs. -/
def decodeRuns (max : Nat) (buffer : Runs) : Except Fault (Option Runs) × Runs :=
  if size buffer < lengthWidth then (.ok none, buffer)
  else
    let length := Bytes.toNat (bytes (takeBytes lengthWidth buffer))
    let body := dropBytes lengthWidth buffer
    if max < length then (.error (.oversize ⟨length, max⟩), buffer)
    else if size body < length then (.ok none, buffer)
    else (.ok (some (takeBytes length body)), dropBytes length body)

theorem bytes_encode (max : Nat) (content : Runs) :
    (encodeRuns max content).map bytes = encode max (bytes content) := by
  rw [encodeRuns, encode, size_eq]
  split
  · rfl
  · simp [Except.map]

theorem bytes_decode (max : Nat) (buffer : Runs) :
    ((decodeRuns max buffer).1.map (Option.map bytes), bytes (decodeRuns max buffer).2) =
      decode max (bytes buffer) := by
  rw [decodeRuns, decode, next]
  simp only [size_eq, bytes_takeBytes, bytes_dropBytes]
  split
  · rfl
  · split
    · rfl
    · split
      · rfl
      · simp [Except.map, bytes_takeBytes, bytes_dropBytes]

end Frame

end Collective
