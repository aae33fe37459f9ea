/-!
Words on the wire: signed 32-bit numbers, the least significant byte first.
-/

namespace ClauseSharing.Word

def toBytes (w : Int32) : List UInt8 :=
  let n := w.toUInt32.toNat
  [UInt8.ofNat n, UInt8.ofNat (n / 256), UInt8.ofNat (n / 65536), UInt8.ofNat (n / 16777216)]

def ofBytes (b₀ b₁ b₂ b₃ : UInt8) : Int32 :=
  (UInt32.ofNat (b₀.toNat + 256 * b₁.toNat + 65536 * b₂.toNat + 16777216 * b₃.toNat)).toInt32

@[simp] theorem length_toBytes (w : Int32) : (toBytes w).length = 4 := rfl

theorem toUInt32_ofBytes (b₀ b₁ b₂ b₃ : UInt8) :
    (ofBytes b₀ b₁ b₂ b₃).toUInt32.toNat =
      b₀.toNat + 256 * b₁.toNat + 65536 * b₂.toNat + 16777216 * b₃.toNat := by
  have h₀ := b₀.toNat_lt
  have h₁ := b₁.toNat_lt
  have h₂ := b₂.toNat_lt
  have h₃ := b₃.toNat_lt
  simp only [ofBytes, UInt32.toUInt32_toInt32, UInt32.toNat_ofNat']
  omega

/-- Every four bytes are the bytes of a word. -/
theorem toBytes_ofBytes (b₀ b₁ b₂ b₃ : UInt8) :
    toBytes (ofBytes b₀ b₁ b₂ b₃) = [b₀, b₁, b₂, b₃] := by
  have h₀ := b₀.toNat_lt
  have h₁ := b₁.toNat_lt
  have h₂ := b₂.toNat_lt
  have h₃ := b₃.toNat_lt
  simp only [toBytes, toUInt32_ofBytes, List.cons.injEq, and_true]
  refine ⟨?_, ?_, ?_, ?_⟩ <;> apply UInt8.toNat_inj.mp <;> simp only [UInt8.toNat_ofNat'] <;> omega

/-- The bytes of a word give it back. -/
theorem ofBytes_toBytes (w : Int32) :
    ofBytes (UInt8.ofNat w.toUInt32.toNat) (UInt8.ofNat (w.toUInt32.toNat / 256))
      (UInt8.ofNat (w.toUInt32.toNat / 65536)) (UInt8.ofNat (w.toUInt32.toNat / 16777216)) = w := by
  have h := w.toUInt32.toNat_lt
  have e : (ofBytes (UInt8.ofNat w.toUInt32.toNat) (UInt8.ofNat (w.toUInt32.toNat / 256))
      (UInt8.ofNat (w.toUInt32.toNat / 65536))
      (UInt8.ofNat (w.toUInt32.toNat / 16777216))).toUInt32 = w.toUInt32 := by
    apply UInt32.toNat_inj.mp
    rw [toUInt32_ofBytes]
    simp only [UInt8.toNat_ofNat']
    omega
  have back := congrArg UInt32.toInt32 e
  rwa [Int32.toInt32_toUInt32, Int32.toInt32_toUInt32] at back

end ClauseSharing.Word
