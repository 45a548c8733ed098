import Mathlib.Data.List.Basic

/-!
Codecs that work on a stream a piece at a time, each with what it means for the whole
stream.

The meaning is given from a state on: what is still to come out of the codec, or what the
other side makes of the bytes that are still to come. A call then splits off what it took
and what it gave, whatever follows.
-/

namespace StreamCodec

/-- A compressor that is flushed with every call. A call has an input and room for output; it
may fail, and else says how much of the input it took and what it put out. `decode` is what
the other side makes of the output from here on. -/
structure Compressor (β ζ : Type) where
  call : ζ → List β → Nat → Option (ζ × Nat × List β)
  decode : ζ → List β → List β
  decode_nil : ∀ z, decode z [] = []
  fits : ∀ {z input room z' taken out}, call z input room = some (z', taken, out) →
    out.length ≤ room
  flushed : ∀ {z input room z' out}, call z input room = some (z', input.length, out) →
    out.length < room → ∀ more, decode z (out ++ more) = input ++ decode z' more

/-- A decompressor. `rest` is what comes out from here on: what it holds back, and what the
input brings. It holds nothing back when it had room left. -/
structure Decompressor (β ι : Type) where
  call : ι → List β → Nat → Option (ι × Nat × List β)
  rest : ι → List β → List β
  fits : ∀ {i input room i' taken out}, call i input room = some (i', taken, out) →
    out.length ≤ room
  stream : ∀ {i input room i' taken out}, call i input room = some (i', taken, out) →
    ∀ more, rest i (input ++ more) = out ++ rest i' (input.drop taken ++ more)
  progress : ∀ {i input room i' taken out}, call i input room = some (i', taken, out) →
    0 < room → input ≠ [] → taken ≠ 0 ∨ out ≠ []
  settled : ∀ {i input room i' taken out}, call i input room = some (i', taken, out) →
    out.length < room → rest i' [] = []

/-- A stream cipher, in one of its directions: `image` is what comes out of it from here on,
and `undo` takes that back. -/
structure Cipher (β κ : Type) where
  update : κ → List β → Option (κ × List β)
  image : κ → List β → List β
  undo : κ → List β → List β
  image_nil : ∀ k, image k [] = []
  undo_image : ∀ k s, undo k (image k s) = s
  length : ∀ {k input k' out}, update k input = some (k', out) → out.length = input.length
  stream : ∀ {k input k' out}, update k input = some (k', out) →
    ∀ more, image k (input ++ more) = out ++ image k' more

variable {β ζ ι κ : Type}

/-- The codecs of a link may be switched off. -/
def Compressor.decode? (D : Compressor β ζ) : Option ζ → List β → List β
  | none, s => s
  | some z, s => D.decode z s

def Decompressor.rest? (I : Decompressor β ι) : Option ι → List β → List β
  | none, s => s
  | some i, s => I.rest i s

def Cipher.image? (C : Cipher β κ) : Option κ → List β → List β
  | none, s => s
  | some k, s => C.image k s

def Cipher.undo? (C : Cipher β κ) : Option κ → List β → List β
  | none, s => s
  | some k, s => C.undo k s

theorem Compressor.decode?_nil (D : Compressor β ζ) (z : Option ζ) : D.decode? z [] = [] := by
  cases z with
  | none => rfl
  | some z => exact D.decode_nil z

theorem Cipher.image?_nil (C : Cipher β κ) (k : Option κ) : C.image? k [] = [] := by
  cases k with
  | none => rfl
  | some k => exact C.image_nil k

theorem Cipher.undo?_image? (C : Cipher β κ) (k : Option κ) (s : List β) :
    C.undo? k (C.image? k s) = s := by
  cases k with
  | none => rfl
  | some k => exact C.undo_image k s

/-! ### Plain codecs -/

def storedCompressor (β : Type) : Compressor β Unit where
  call _ input room := some ((), min room input.length, input.take room)
  decode _ s := s
  decode_nil _ := rfl
  fits h := by
    cases h
    exact List.length_take_le ..
  flushed h hlen more := by
    simp only [Option.some.injEq, Prod.mk.injEq, true_and] at h
    obtain ⟨-, rfl⟩ := h
    rw [List.length_take] at hlen
    rw [List.take_of_length_le (by omega)]

def storedDecompressor (β : Type) : Decompressor β Unit where
  call _ input room := some ((), min room input.length, input.take room)
  rest _ s := s
  fits h := by
    cases h
    exact List.length_take_le ..
  stream h more := by
    simp only [Option.some.injEq, Prod.mk.injEq, true_and] at h
    obtain ⟨rfl, rfl⟩ := h
    rw [← List.append_assoc, List.take_eq_take_min, List.take_append_drop]
  progress h hroom hne := by
    simp only [Option.some.injEq, Prod.mk.injEq, true_and] at h
    obtain ⟨rfl, -⟩ := h
    have hpos := List.length_pos_iff.mpr hne
    omega
  settled _ _ := rfl

/-! ### Cipher feedback -/

/-- Each byte is combined with what the block function makes of the cipher byte before it. -/
def feedback (f : UInt8 → UInt8) : UInt8 → List UInt8 → List UInt8
  | _, [] => []
  | k, b :: s => (b ^^^ f k) :: feedback f (b ^^^ f k) s

def unfeedback (f : UInt8 → UInt8) : UInt8 → List UInt8 → List UInt8
  | _, [] => []
  | k, c :: s => (c ^^^ f k) :: unfeedback f c s

theorem length_feedback (f : UInt8 → UInt8) (k : UInt8) (s : List UInt8) :
    (feedback f k s).length = s.length := by
  induction s generalizing k with
  | nil => rfl
  | cons b s ih => exact congrArg (· + 1) (ih _)

theorem unfeedback_feedback (f : UInt8 → UInt8) (k : UInt8) (s : List UInt8) :
    unfeedback f k (feedback f k s) = s := by
  induction s generalizing k with
  | nil => rfl
  | cons b s ih => rw [feedback, unfeedback, ih, UInt8.xor_assoc, UInt8.xor_self, UInt8.xor_zero]

theorem feedback_append (f : UInt8 → UInt8) (k : UInt8) (s t : List UInt8) :
    feedback f k (s ++ t) = feedback f k s ++ feedback f ((feedback f k s).getLastD k) t := by
  induction s generalizing k with
  | nil => rfl
  | cons b s ih =>
    simp only [List.cons_append, feedback, ih, List.getLastD_cons]

def feedbackCipher (f : UInt8 → UInt8) : Cipher UInt8 UInt8 where
  update k input := some ((feedback f k input).getLastD k, feedback f k input)
  image := feedback f
  undo := unfeedback f
  image_nil _ := rfl
  undo_image := unfeedback_feedback f
  length h := by
    cases h
    exact length_feedback ..
  stream h more := by
    cases h
    exact feedback_append ..

theorem unfeedback_append (f : UInt8 → UInt8) (k : UInt8) (s t : List UInt8) :
    unfeedback f k (s ++ t) = unfeedback f k s ++ unfeedback f (s.getLastD k) t := by
  induction s generalizing k with
  | nil => rfl
  | cons c s ih => simp only [List.cons_append, unfeedback, ih, List.getLastD_cons]

theorem length_unfeedback (f : UInt8 → UInt8) (k : UInt8) (s : List UInt8) :
    (unfeedback f k s).length = s.length := by
  induction s generalizing k with
  | nil => rfl
  | cons c s ih => exact congrArg (· + 1) (ih _)

theorem feedback_unfeedback (f : UInt8 → UInt8) (k : UInt8) (s : List UInt8) :
    feedback f k (unfeedback f k s) = s := by
  induction s generalizing k with
  | nil => rfl
  | cons c s ih =>
    rw [unfeedback, feedback, UInt8.xor_assoc, UInt8.xor_self, UInt8.xor_zero, ih]

def unfeedbackCipher (f : UInt8 → UInt8) : Cipher UInt8 UInt8 where
  update k input := some (input.getLastD k, unfeedback f k input)
  image := unfeedback f
  undo := feedback f
  image_nil _ := rfl
  undo_image := feedback_unfeedback f
  length h := by
    cases h
    exact length_unfeedback ..
  stream h more := by
    cases h
    exact unfeedback_append ..

end StreamCodec
