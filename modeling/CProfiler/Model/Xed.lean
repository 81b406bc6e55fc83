import CProfiler.Foundation.Loops

/-! What the profiler uses of XED: `xed_decode` on a window of bytes, and the length,
category and branch displacement of a decoded instruction. XED itself is not part of
the repository, so the decoder is a parameter. -/

namespace CProfiler.Model

/-- `xed_category_enum_t`. The categories that the profiler never names keep their code. -/
inductive Category where
  | call
  | ret
  | syscall
  | sysret
  | system
  | uncondBr
  | condBr
  | other (code : ℕ)
  deriving DecidableEq, Repr

/-- XED in one machine mode. `decode` is `xed_decode` on a window, `none` standing for
every error code; an instruction is 1 to 15 bytes long. -/
structure Decoder (ι : Type) where
  decode : List UInt8 → Option ι
  length : ι → ℕ
  category : ι → Category
  branchDisplacement : ι → ℤ
  length_pos : ∀ {w i}, decode w = some i → 1 ≤ length i
  length_le : ∀ {w i}, decode w = some i → length i ≤ 15

/-- A decoder that needs, and looks at, the bytes of the instruction only. -/
structure LocalDecoder (ι : Type) extends Decoder ι where
  decode_eq_some_iff : ∀ {w i}, decode w = some i ↔
    length i ≤ w.length ∧ decode (w.take (length i)) = some i

/-- The window of `n` bytes at an offset of the data. -/
def window (data : ℕ → UInt8) (off n : ℕ) : List UInt8 :=
  (List.range n).map (fun k => data (off + k))

@[simp] theorem length_window (data : ℕ → UInt8) (off n : ℕ) : (window data off n).length = n := by
  simp [window]

theorem take_window (data : ℕ → UInt8) (off : ℕ) {k n : ℕ} (h : k ≤ n) :
    (window data off n).take k = window data off k := by
  rw [window, ← List.map_take, List.take_range, Nat.min_eq_left h, window]

namespace LocalDecoder

variable {ι : Type} (d : LocalDecoder ι)

theorem length_le_of_decode {data : ℕ → UInt8} {off n : ℕ} {i : ι}
    (h : d.decode (window data off n) = some i) : d.length i ≤ n := by
  simpa using (d.decode_eq_some_iff.mp h).1

/-- A window that decodes still decodes to the same instruction when it is cut or
widened beyond the instruction's bytes. -/
theorem decode_window {data : ℕ → UInt8} {off n m : ℕ} {i : ι}
    (h : d.decode (window data off n) = some i) (hm : d.length i ≤ m) :
    d.decode (window data off m) = some i := by
  have hn := d.length_le_of_decode h
  have hown := (d.decode_eq_some_iff.mp h).2
  rw [take_window data off hn] at hown
  apply d.decode_eq_some_iff.mpr
  rw [take_window data off hm]
  exact ⟨by simpa using hm, hown⟩

theorem decode_window_zero (data : ℕ → UInt8) (off : ℕ) :
    d.decode (window data off 0) = none := by
  cases h : d.decode (window data off 0) with
  | none => rfl
  | some i =>
      have hpos := d.length_pos h
      have hle := d.length_le_of_decode h
      omega

end LocalDecoder

/-! ## A fragment of x86-64 -/

/-- The one-byte `NOP` and near `RET`, `JMP rel8`, and `ADD [RAX], AL`, which two zeros are. -/
inductive ShortInst where
  | nop
  | ret
  | jmp (rel8 : UInt8)
  | add
  deriving DecidableEq, Repr

namespace ShortInst

def decode : List UInt8 → Option ShortInst
  | 0x90 :: _ => some nop
  | 0xC3 :: _ => some ret
  | 0xEB :: rel8 :: _ => some (jmp rel8)
  | 0x00 :: 0x00 :: _ => some add
  | _ => none

def length : ShortInst → ℕ
  | nop => 1
  | ret => 1
  | jmp _ => 2
  | add => 2

def category : ShortInst → Category
  | nop => .other 0
  | ret => .ret
  | jmp _ => .uncondBr
  | add => .other 1

def branchDisplacement : ShortInst → ℤ
  | jmp rel8 => if rel8 < 0x80 then rel8.toNat else (rel8.toNat : ℤ) - 256
  | _ => 0

theorem decode_append {w : List UInt8} {i : ShortInst} (h : decode w = some i)
    (v : List UInt8) : decode (w ++ v) = some i := by
  unfold decode at h
  split at h
  · exact h
  · exact h
  · exact h
  · exact h
  · simp at h

theorem decode_take {w : List UInt8} {i : ShortInst} (h : decode w = some i) :
    length i ≤ w.length ∧ decode (w.take (length i)) = some i := by
  unfold decode at h
  split at h
  · obtain rfl : nop = i := Option.some.inj h
    simp [length, decode]
  · obtain rfl : ret = i := Option.some.inj h
    simp [length, decode]
  · obtain rfl : jmp _ = i := Option.some.inj h
    simp [length, decode]
  · obtain rfl : add = i := Option.some.inj h
    simp [length, decode]
  · simp at h

theorem decode_eq_some_iff {w : List UInt8} {i : ShortInst} :
    decode w = some i ↔ length i ≤ w.length ∧ decode (w.take (length i)) = some i := by
  constructor
  · exact decode_take
  · intro h
    have happ := decode_append h.2 (w.drop (length i))
    rwa [List.take_append_drop] at happ

end ShortInst

/-- A decoder that knows this fragment only. -/
def shortDecoder : LocalDecoder ShortInst where
  decode := ShortInst.decode
  length := ShortInst.length
  category := ShortInst.category
  branchDisplacement := ShortInst.branchDisplacement
  length_pos := by
    intro _ i _
    cases i <;> simp [ShortInst.length]
  length_le := by
    intro _ i _
    cases i <;> simp [ShortInst.length]
  decode_eq_some_iff := ShortInst.decode_eq_some_iff

end CProfiler.Model
