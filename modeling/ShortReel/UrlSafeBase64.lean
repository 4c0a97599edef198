import ShortReel.JsonText

/-!
# URL-safe base64

Bytes written as characters of the URL-safe alphabet, four for every three bytes and padded at the
end, and read back.
-/

namespace ShortReel.UrlSafeBase64

open JsonText

def symbol (bits : ℕ) : ℕ :=
  if bits < 26 then 65 + bits
  else if bits < 52 then 71 + bits
  else if bits < 62 then bits - 4
  else if bits = 62 then 45
  else 95

def bitsOf (c : ℕ) : Option ℕ :=
  if 65 ≤ c ∧ c ≤ 90 then some (c - 65)
  else if 97 ≤ c ∧ c ≤ 122 then some (c - 71)
  else if 48 ≤ c ∧ c ≤ 57 then some (c + 4)
  else if c = 45 ∨ c = 43 then some 62
  else if c = 95 ∨ c = 47 then some 63
  else none

theorem bitsOf_symbol {bits : ℕ} (h : bits < 64) : bitsOf (symbol bits) = some bits := by
  have hall : ∀ bits < 64, bitsOf (symbol bits) = some bits := by decide
  exact hall bits h

theorem symbol_ne_pad {bits : ℕ} (h : bits < 64) : symbol bits ≠ 61 := by
  have hall : ∀ bits < 64, symbol bits ≠ 61 := by decide
  exact hall bits h

/-- `base64.urlsafe_b64encode`. -/
def encode : List ℕ → Text
  | [] => []
  | [first] => [symbol (first / 4), symbol (first % 4 * 16), 61, 61]
  | [first, second] =>
      [symbol (first / 4), symbol (first % 4 * 16 + second / 16), symbol (second % 16 * 4), 61]
  | first :: second :: third :: bytes =>
      symbol (first / 4) :: symbol (first % 4 * 16 + second / 16) ::
        symbol (second % 16 * 4 + third / 64) :: symbol (third % 64) :: encode bytes

/-- The bytes of a group of four characters, the last of a text or one with more behind it. -/
def decodeGroup (last : Bool) (w x y z : ℕ) : Option (List ℕ) :=
  match bitsOf w, bitsOf x with
  | some w, some x =>
      let first := w * 4 + x / 16
      if last ∧ y = 61 ∧ z = 61 then some [first]
      else
        match bitsOf y with
        | none => none
        | some y =>
            let second := x % 16 * 16 + y / 4
            if last ∧ z = 61 then some [first, second]
            else (bitsOf z).map fun z => [first, second, y % 4 * 64 + z]
  | _, _ => none

/-- `base64.b64decode` with the URL-safe characters, which refuses all characters beyond the
alphabet. -/
def decode : Text → Option (List ℕ)
  | [] => some []
  | w :: x :: y :: z :: t =>
      match decodeGroup (t = []) w x y z, decode t with
      | some bytes, some rest => some (bytes ++ rest)
      | _, _ => none
  | _ => none

theorem decodeGroup_three {first second third : ℕ} (hfirst : first < 256) (hsecond : second < 256)
    (hthird : third < 256) (last : Bool) :
    decodeGroup last (symbol (first / 4)) (symbol (first % 4 * 16 + second / 16))
      (symbol (second % 16 * 4 + third / 64)) (symbol (third % 64)) =
        some [first, second, third] := by
  have hz : third % 64 < 64 := Nat.mod_lt _ (by decide)
  simp only [decodeGroup, bitsOf_symbol (show first / 4 < 64 by omega),
    bitsOf_symbol (show first % 4 * 16 + second / 16 < 64 by omega),
    bitsOf_symbol (show second % 16 * 4 + third / 64 < 64 by omega), bitsOf_symbol hz]
  rw [if_neg fun h => symbol_ne_pad hz h.2.2, if_neg fun h => symbol_ne_pad hz h.2, Option.map_some]
  refine congrArg some (List.cons_eq_cons.mpr ⟨by omega, List.cons_eq_cons.mpr ⟨by omega, ?_⟩⟩)
  exact List.cons_eq_cons.mpr ⟨by omega, rfl⟩

theorem decode_encode {bytes : List ℕ} (h : ∀ byte ∈ bytes, byte < 256) :
    decode (encode bytes) = some bytes := by
  fun_induction encode bytes with
  | case1 => rfl
  | case2 first =>
      have hfirst : first < 256 := h first (by simp)
      simp only [decode, decodeGroup, bitsOf_symbol (show first / 4 < 64 by omega),
        bitsOf_symbol (show first % 4 * 16 < 64 by omega), decide_true, and_self, if_true,
        List.append_nil, Option.some.injEq, List.cons.injEq, and_true]
      omega
  | case3 first second =>
      have hfirst : first < 256 := h first (by simp)
      have hsecond : second < 256 := h second (by simp)
      have hy : second % 16 * 4 < 64 := by omega
      simp only [decode, decodeGroup, bitsOf_symbol (show first / 4 < 64 by omega),
        bitsOf_symbol (show first % 4 * 16 + second / 16 < 64 by omega), bitsOf_symbol hy,
        symbol_ne_pad hy, decide_true, and_self, and_false, if_true, if_false,
        List.append_nil, Option.some.injEq, List.cons.injEq, and_true]
      omega
  | case4 first second third bytes ih =>
      have hrest := ih fun byte hbyte => h byte (by simp [hbyte])
      rw [decode, hrest, decodeGroup_three (h first (by simp)) (h second (by simp))
        (h third (by simp))]
      rfl

end ShortReel.UrlSafeBase64
