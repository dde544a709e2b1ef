import Sserialize.ItemIndex.RleDE

namespace Sserialize.RleDE

/-- One entry of the payload. -/
inductive Word where
  | single (delta : Nat)
  | run (count delta : Nat)
  deriving Repr, DecidableEq

namespace Word

def bytes : Word → Bytes
  | single d => pVu32 (u32 (d <<< 1))
  | run n d => pVu32 (u32 (n <<< 1) ||| 0x1) ++ pVu32 (u32 (d <<< 1))

def deltas : Word → List Nat
  | single d => [d]
  | run n d => List.replicate n d

def isRun : Word → Bool
  | single _ => false
  | run _ _ => true

def Fits : Word → Prop
  | single d => d < 2 ^ 31
  | run n d => n < 2 ^ 31 ∧ d < 2 ^ 31

def NonEmpty : Word → Prop
  | single _ => True
  | run n _ => 0 < n

instance : DecidablePred Fits
  | .single d => inferInstanceAs (Decidable (d < 2 ^ 31))
  | .run n d => inferInstanceAs (Decidable (n < 2 ^ 31 ∧ d < 2 ^ 31))

instance : DecidablePred NonEmpty
  | .single _ => inferInstanceAs (Decidable True)
  | .run n _ => inferInstanceAs (Decidable (0 < n))

end Word

def payload (ws : List Word) : Bytes := ws.flatMap Word.bytes

def deltasOf (ws : List Word) : List Nat := ws.flatMap Word.deltas

@[simp] theorem payload_nil : payload [] = [] := rfl

@[simp] theorem payload_cons (w : Word) (ws : List Word) :
    payload (w :: ws) = w.bytes ++ payload ws := by
  simp [payload]

@[simp] theorem deltasOf_nil : deltasOf [] = [] := rfl

@[simp] theorem deltasOf_cons (w : Word) (ws : List Word) :
    deltasOf (w :: ws) = w.deltas ++ deltasOf ws := by
  simp [deltasOf]

theorem payload_append (ws vs : List Word) : payload (ws ++ vs) = payload ws ++ payload vs := by
  simp [payload]

theorem deltasOf_append (ws vs : List Word) : deltasOf (ws ++ vs) = deltasOf ws ++ deltasOf vs := by
  simp [deltasOf]

theorem u32_shiftLeft_one {d : Nat} (hd : d < 2 ^ 31) : u32 (d <<< 1) = 2 * d := by
  rw [Nat.shiftLeft_eq, u32_of_lt (by omega)]
  omega

theorem two_mul_or_one (n : Nat) : 2 * n ||| 1 = 2 * n + 1 := by
  have h := Nat.two_pow_add_eq_or_of_lt (i := 1) (b := 1) (by decide) n
  simpa using h.symm

theorem u32_shiftLeft_or_one {n : Nat} (hn : n < 2 ^ 31) : u32 (n <<< 1) ||| 0x1 = 2 * n + 1 := by
  rw [u32_shiftLeft_one hn, two_mul_or_one]

theorem two_mul_and_one (d : Nat) : 2 * d &&& 0x1 = 0 := by
  rw [Nat.and_one_is_mod]
  omega

theorem two_mul_add_one_and_one (n : Nat) : (2 * n + 1) &&& 0x1 = 1 := by
  rw [Nat.and_one_is_mod]
  omega

theorem two_mul_shiftRight (d : Nat) : (2 * d) >>> 1 = d := by
  rw [Nat.shiftRight_eq_div_pow]
  omega

theorem two_mul_add_one_shiftRight (n : Nat) : (2 * n + 1) >>> 1 = n := by
  rw [Nat.shiftRight_eq_div_pow]
  omega

theorem bytes_ne_nil (w : Word) : w.bytes ≠ [] := by
  cases w with
  | single d => exact pVu32_ne_nil (u32_lt _)
  | run n d =>
    intro hnil
    exact pVu32_ne_nil (u32_lt (d <<< 1)) (List.append_eq_nil_iff.mp hnil).2

theorem length_le_length_payload (ws : List Word) : ws.length ≤ (payload ws).length := by
  induction ws with
  | nil => exact Nat.le_refl 0
  | cons w ws ih =>
    have hpos := List.length_pos_of_ne_nil (bytes_ne_nil w)
    simp only [List.length_cons, payload_cons, List.length_append]
    omega

def wrapSums : Nat → List Nat → List Nat
  | _, [] => []
  | acc, d :: ds => u32 (acc + d) :: wrapSums (u32 (acc + d)) ds

def wrapLast (acc : Nat) (ds : List Nat) : Nat := ds.foldl (fun a d => u32 (a + d)) acc

@[simp] theorem length_wrapSums (acc : Nat) (ds : List Nat) :
    (wrapSums acc ds).length = ds.length := by
  induction ds generalizing acc with
  | nil => rfl
  | cons d ds ih => simp [wrapSums, ih]

theorem wrapSums_append (acc : Nat) (ds es : List Nat) :
    wrapSums acc (ds ++ es) = wrapSums acc ds ++ wrapSums (wrapLast acc ds) es := by
  induction ds generalizing acc with
  | nil => rfl
  | cons d ds ih =>
    simp only [List.cons_append, wrapSums, ih]
    rfl

theorem wrapLast_append (acc : Nat) (ds es : List Nat) :
    wrapLast acc (ds ++ es) = wrapLast (wrapLast acc ds) es := by
  simp [wrapLast]

theorem wrapSums_eq_sums {acc : Nat} {ds : List Nat} (h : acc + ds.sum < 2 ^ 32) :
    wrapSums acc ds = Ascending.sums acc ds := by
  induction ds generalizing acc with
  | nil => rfl
  | cons d ds ih =>
    rw [List.sum_cons] at h
    have hu : u32 (acc + d) = acc + d := u32_of_lt (by omega)
    rw [wrapSums, Ascending.sums, hu, ih (by omega)]

section
variable {data rest : Bytes} {pos : Nat}

theorem get_single {d : Nat} (hd : d < 2 ^ 31)
    (hdrop : data.drop pos = (Word.single d).bytes ++ rest) :
    getVlPackedUint32At data pos = .ok (2 * d, (Word.single d).bytes.length) := by
  have hu := u32_shiftLeft_one hd
  simp only [Word.bytes, hu] at hdrop ⊢
  exact getVlPackedUint32At_of_drop (by omega) hdrop

theorem get_run {n d : Nat} (hn : n < 2 ^ 31) (hd : d < 2 ^ 31)
    (hdrop : data.drop pos = (Word.run n d).bytes ++ rest) :
    ∃ len₁ len₂, getVlPackedUint32At data pos = .ok (2 * n + 1, len₁) ∧
      getVlPackedUint32At data (pos + len₁) = .ok (2 * d, len₂) ∧
      len₁ + len₂ = (Word.run n d).bytes.length := by
  have hu := u32_shiftLeft_one hd
  have hor := u32_shiftLeft_or_one hn
  simp only [Word.bytes, hu, hor, List.append_assoc] at hdrop ⊢
  refine ⟨_, _, getVlPackedUint32At_of_drop (by omega) hdrop, ?_, (List.length_append ..).symm⟩
  exact getVlPackedUint32At_of_drop (by omega) (drop_add_of_drop hdrop)

end

end Sserialize.RleDE
