import Collective.Proofs.Link.Framing
import Collective.Settings.Basic

/-!
# How long a frame is said to be

A frame is sent whenever it is not above the maximum, but of its length only four bytes are sent.
What is read back is therefore the front of the frame up to the remainder of its length by `2 ^ 32`,
and reading goes on behind that. It is the frame itself exactly if the length fits its bytes, which
a maximum below `2 ^ 32` guarantees and the rules of the settings do not.
-/

namespace Collective.Frame

variable {max : Nat} {content sent : Bytes}

theorem encode_eq_ok_iff :
    encode max content = .ok sent ↔ content.length ≤ max ∧ sent = wire content := by
  rw [encode, wire]
  split
  · next hlong => simp [Nat.not_le.2 hlong]
  · next hfits => simp [Nat.not_lt.1 hfits, eq_comm]

/-- Decoding takes the part of the content that is announced. -/
theorem next_wire_append_of_le (h : content.length ≤ max) (more : Bytes) :
    next max (wire content ++ more) =
      .frame (content.take (content.length % 2 ^ 32))
        (content.drop (content.length % 2 ^ 32) ++ more) := by
  have hannounced := announced_wire_eq_mod content more
  have hle : content.length % 2 ^ 32 ≤ content.length := Nat.mod_le ..
  rw [announced] at hannounced
  rw [next_eq_frame_iff, hannounced, drop_wire, List.take_append_of_le_length hle,
    List.drop_append_of_le_length hle]
  refine ⟨?_, Nat.le_trans hle h, ?_, rfl, rfl⟩
  · rw [List.length_append, length_wire, Nat.add_assoc]
    exact Nat.le_add_right ..
  · rw [List.length_append]
    exact Nat.le_trans hle (Nat.le_add_right ..)

/-- Whatever follows an encoded frame, decoding takes off its front as much of the content as is
announced, and that is the remainder of its length by `2 ^ 32`. The frame comes back, and decoding
goes on behind it, exactly if its length fits the bytes for it. -/
theorem decoded_up_to_announced (h : encode max content = .ok sent) (more : Bytes) :
    announced (sent ++ more) = content.length % 2 ^ 32 ∧
    decode max (sent ++ more) =
      (.ok (some (content.take (content.length % 2 ^ 32))),
        content.drop (content.length % 2 ^ 32) ++ more) ∧
    (decode max (sent ++ more) = (.ok (some content), more) ↔ content.length < 2 ^ 32) := by
  obtain ⟨hfits, rfl⟩ := encode_eq_ok_iff.1 h
  have hdecode : decode max (wire content ++ more) =
      (.ok (some (content.take (content.length % 2 ^ 32))),
        content.drop (content.length % 2 ^ 32) ++ more) := by
    rw [decode, next_wire_append_of_le hfits]
  refine ⟨announced_wire_eq_mod content more, hdecode, ?_⟩
  rw [hdecode]
  constructor
  · intro heq
    have hwhole : content.take (content.length % 2 ^ 32) = content :=
      Option.some.inj (Except.ok.inj (Prod.mk.inj heq).1)
    have hlength := congrArg List.length hwhole
    rw [List.length_take_of_le (Nat.mod_le ..)] at hlength
    rw [← hlength]
    exact Nat.mod_lt _ (by decide)
  · intro hlt
    rw [Nat.mod_eq_of_lt hlt, List.take_length, List.drop_length, List.nil_append]

/-- A frame of two bytes, in front of a length that is not whole yet. -/
theorem decoded_up_to_announced_short :
    encode 64 [7, 9] = .ok [0, 0, 0, 2, 7, 9] ∧
      announced [0, 0, 0, 2, 7, 9, 0, 0] = 2 ∧
      decode 64 [0, 0, 0, 2, 7, 9, 0, 0] = (.ok (some [7, 9]), [0, 0]) := by
  have hsent : encode 64 [7, 9] = .ok [0, 0, 0, 2, 7, 9] := by decide
  obtain ⟨hannounced, -, hback⟩ := decoded_up_to_announced hsent [0, 0]
  exact ⟨hsent, hannounced, hback.2 (by decide)⟩

/-- With settings that obey all rules, a frame of `2 ^ 32` bytes is sent as an empty one, and its
bytes are taken for the frames that follow. -/
theorem length_cut_off :
    ({ maxFrameSize := 2 ^ 32 } : TransportSettings).violations = [] ∧
      encode (2 ^ 32) (List.replicate (2 ^ 32) 97) =
        .ok (wire (List.replicate (2 ^ 32) 97)) ∧
      announced (wire (List.replicate (2 ^ 32) 97)) = 0 ∧
      decode (2 ^ 32) (wire (List.replicate (2 ^ 32) 97)) =
        (.ok (some []), List.replicate (2 ^ 32) 97) := by
  have hlength : (List.replicate (2 ^ 32) (97 : UInt8)).length = 2 ^ 32 := List.length_replicate
  have hannounced := announced_wire_eq_mod (List.replicate (2 ^ 32) 97) []
  have hnext := next_wire_append_of_le (Nat.le_of_eq hlength) []
  rw [hlength, Nat.mod_self, List.append_nil] at hannounced
  refine ⟨?_, encode_eq_wire (Nat.le_of_eq hlength), hannounced, ?_⟩
  · rw [TransportSettings.violations_eq_nil_iff]
    decide
  · rw [hlength, Nat.mod_self, List.take_zero, List.drop_zero, List.append_nil,
      List.append_nil] at hnext
    rw [decode, hnext]

end Collective.Frame
