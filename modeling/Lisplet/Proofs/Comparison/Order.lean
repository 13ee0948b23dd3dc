import Lisplet.Primitive.Comparison
import Lisplet.Proofs.Prompt.Lines

/-! The orders that comparisons go by: that of floats, in which what is no number has no place, and
that of strings, which is the order of the bytes that encode them. -/
namespace Lisplet

namespace Comparison

open Float.Model

/-- Two floats compared the other way round. -/
theorem compare_unpacked_swap (a b : UnpackedFloat) :
    b.compare a = (a.compare b).map Ordering.swap := by
  have hfinite (e e' : Int) (m m' : Nat) : (Ord.compare e' e).then (Ord.compare m' m) =
      ((Ord.compare e e').then (Ord.compare m m')).swap := by
    have hnat : (Ord.compare m m').swap = Ord.compare m' m := Nat.compare_swap m m'
    have hint : (Ord.compare e e').swap = Ord.compare e' e := Int.compare_swap e e'
    rw [Ordering.swap_then, hint, hnat]
  cases a with
  | notANumber => cases b <;> rfl
  | infinity s => rcases s <;> rcases b with ⟨⟨⟩⟩ | _ | ⟨⟨⟩⟩ | ⟨⟨⟩⟩ <;> rfl
  | zero s => rcases s <;> rcases b with ⟨⟨⟩⟩ | _ | ⟨⟨⟩⟩ | ⟨⟨⟩⟩ <;> rfl
  | finite s m e _ =>
    rcases s <;> rcases b with ⟨⟨⟩⟩ | _ | ⟨⟨⟩⟩ | ⟨⟨⟩, m', e', _⟩ <;> try rfl
    · exact congrArg (fun o => some o.swap) (hfinite e e' m m')
    · exact congrArg some (hfinite e e' m m')

def compareFloats (x y : Float) : Option Ordering := x.toModel.unpack.compare y.toModel.unpack

theorem float_lt_iff {x y : Float} : x < y ↔ compareFloats x y = some .lt := by
  change decide (_ = true) = true ↔ _
  rw [decide_eq_true_iff]
  exact beq_iff_eq

theorem float_le_iff {x y : Float} : x ≤ y ↔ ∃ o, compareFloats x y = some o ∧ o.isLE = true := by
  change decide (_ = true) = true ↔ _
  rw [decide_eq_true_iff]
  exact Option.any_eq_true _ _

theorem float_beq_iff {x y : Float} : (x == y) = true ↔ compareFloats x y = some .eq := by
  change (compareFloats x y == some .eq) = true ↔ _
  rw [beq_iff_eq]

theorem compareFloats_swap (x y : Float) :
    compareFloats y x = (compareFloats x y).map Ordering.swap :=
  compare_unpacked_swap _ _

/-- Two floats are equal if they are one number; the two zeros are equal too. -/
theorem compare_unpacked_eq_iff (a b : UnpackedFloat) : a.compare b = some .eq ↔
    (∃ s s', a = .zero s ∧ b = .zero s') ∨ a = b ∧ a ≠ .notANumber := by
  have hfinite (e e' : Int) (m m' : Nat) :
      (Ord.compare e e').then (Ord.compare m m') = .eq ↔ m = m' ∧ e = e' := by
    rw [Ordering.then_eq_eq, Int.compare_eq_eq, Nat.compare_eq_eq, and_comm]
  constructor
  · intro h
    rcases a with ⟨⟨⟩⟩ | _ | _ | ⟨⟨⟩, m, e, _⟩ <;> rcases b with ⟨⟨⟩⟩ | _ | _ | ⟨⟨⟩, m', e', _⟩ <;>
      first
      | (cases h; done)
      | exact .inl ⟨_, _, rfl, rfl⟩
      | exact .inr ⟨rfl, nofun⟩
      | skip
    · have hswap : ((Ord.compare e e').then (Ord.compare m m')).swap = .eq := Option.some.inj h
      obtain ⟨rfl, rfl⟩ := (hfinite e e' m m').mp (Ordering.swap_eq_eq.mp hswap)
      exact .inr ⟨rfl, nofun⟩
    · obtain ⟨rfl, rfl⟩ := (hfinite e e' m m').mp (Option.some.inj h)
      exact .inr ⟨rfl, nofun⟩
  · rintro (⟨s, s', rfl, rfl⟩ | ⟨rfl, hnumber⟩)
    · rfl
    · cases a with
      | notANumber => exact absurd rfl hnumber
      | infinity s => cases s <;> rfl
      | zero s => rfl
      | finite s m e _ =>
        cases s with
        | positive => exact congrArg some ((hfinite e e m m).mpr ⟨rfl, rfl⟩)
        | negative => exact congrArg (fun o => some o.swap) ((hfinite e e m m).mpr ⟨rfl, rfl⟩)

theorem float_beq_comm (x y : Float) : (x == y) = (y == x) := by
  rw [Bool.eq_iff_iff, float_beq_iff, float_beq_iff, compareFloats_swap x y]
  cases compareFloats x y with
  | none => simp
  | some o => cases o <;> simp

theorem float_beq_trans {x y z : Float} (hxy : (x == y) = true) (hyz : (y == z) = true) :
    (x == z) = true := by
  rw [float_beq_iff] at hxy hyz ⊢
  refine (compare_unpacked_eq_iff _ _).mpr ?_
  rcases (compare_unpacked_eq_iff _ _).mp hxy with ⟨s, s', hx, hy⟩ | ⟨hxy, hx⟩ <;>
    rcases (compare_unpacked_eq_iff _ _).mp hyz with ⟨t, t', hy', hz⟩ | ⟨hyz, hy'⟩
  · exact .inl ⟨s, t', hx, hz⟩
  · exact .inl ⟨s, s', hx, hyz ▸ hy⟩
  · exact .inl ⟨t, t', hxy.trans hy', hz⟩
  · exact .inr ⟨hxy.trans hyz, hx⟩

theorem float_gt_iff {x y : Float} : y < x ↔ compareFloats x y = some .gt := by
  rw [float_lt_iff, compareFloats_swap]
  cases compareFloats x y with
  | none => simp
  | some o => cases o <;> simp

theorem float_ge_iff {x y : Float} : y ≤ x ↔ ∃ o, compareFloats x y = some o ∧ o.isGE = true := by
  rw [float_le_iff, compareFloats_swap]
  cases compareFloats x y with
  | none => simp
  | some o => cases o <;> simp

theorem orderFloats_eq (x y : Float) : orderFloats x y = compareFloats x y := by
  unfold orderFloats
  simp only [float_gt_iff (x := x) (y := y), float_lt_iff (x := x) (y := y), float_beq_iff]
  cases compareFloats x y with
  | none => rfl
  | some o => cases o <;> rfl

/-- What is no number has no order. -/
theorem compareFloats_of_isNaN {x y : Float} (h : x.isNaN = true ∨ y.isNaN = true) :
    compareFloats x y = none := by
  have hnan (z : Float) (hz : z.toModel.unpack.isNaN = true) :
      z.toModel.unpack = .notANumber := by
    cases hz' : z.toModel.unpack with
    | notANumber => rfl
    | _ =>
      rw [hz'] at hz
      cases hz
  rcases h with h | h
  · rw [compareFloats, hnan x h]
    rfl
  · rw [compareFloats, hnan y h]
    cases x.toModel.unpack <;> rfl

end Comparison

namespace Text

theorem ofNat_cons_lt {a b : Nat} {bs bs' : List UInt8} (ha : a < 256) (hb : b < 256)
    (h : a < b ∨ a = b ∧ bs < bs') : UInt8.ofNat a :: bs < UInt8.ofNat b :: bs' :=
  List.cons_lt_cons_iff.mpr (h.imp (UInt8.ofNat_lt_iff_lt ha hb).mpr
    fun hrest => ⟨congrArg _ hrest.1, hrest.2⟩)

/-- A smaller character is encoded by smaller bytes, whatever stands behind. -/
theorem utf8EncodeChar_lt {c d : Char} (h : c < d) (bs bs' : List UInt8) :
    String.utf8EncodeChar c ++ bs < String.utf8EncodeChar d ++ bs' := by
  have hlt : c.val.toNat < d.val.toNat := h
  have hmax : d.val.toNat < 1114112 := by
    rcases d.valid with hd | ⟨-, hd⟩
    · exact Nat.lt_trans hd (by decide)
    · exact hd
  unfold String.utf8EncodeChar
  dsimp only
  generalize c.val.toNat = m at hlt ⊢
  generalize d.val.toNat = n at hlt hmax ⊢
  -- Encodings of different lengths differ in the first byte, others in the first digit that does.
  repeat' split
  all_goals try omega
  all_goals try exact ofNat_cons_lt (by omega) (by omega) (.inl (by omega))
  · refine ofNat_cons_lt (by omega) (by omega) ?_
    by_cases h₁ : m / 64 < n / 64
    · exact .inl (by omega)
    · exact .inr ⟨by omega, ofNat_cons_lt (by omega) (by omega) (.inl (by omega))⟩
  · refine ofNat_cons_lt (by omega) (by omega) ?_
    by_cases h₁ : m / 4096 < n / 4096
    · exact .inl (by omega)
    refine .inr ⟨by omega, ofNat_cons_lt (by omega) (by omega) ?_⟩
    by_cases h₂ : m / 64 < n / 64
    · exact .inl (by omega)
    · exact .inr ⟨by omega, ofNat_cons_lt (by omega) (by omega) (.inl (by omega))⟩
  · refine ofNat_cons_lt (by omega) (by omega) ?_
    by_cases h₁ : m / 262144 < n / 262144
    · exact .inl (by omega)
    refine .inr ⟨by omega, ofNat_cons_lt (by omega) (by omega) ?_⟩
    by_cases h₂ : m / 4096 < n / 4096
    · exact .inl (by omega)
    refine .inr ⟨by omega, ofNat_cons_lt (by omega) (by omega) ?_⟩
    by_cases h₃ : m / 64 < n / 64
    · exact .inl (by omega)
    · exact .inr ⟨by omega, ofNat_cons_lt (by omega) (by omega) (.inl (by omega))⟩

theorem encode_cons (c : Char) (cs : List Char) :
    encode (c :: cs) = String.utf8EncodeChar c ++ encode cs :=
  List.flatMap_cons

theorem encode_lt {a b : List Char} (h : a < b) : encode a < encode b := by
  induction a generalizing b with
  | nil =>
    cases b with
    | nil => exact absurd h (List.not_lt_nil [])
    | cons d b =>
      have hbytes : 0 < (encode (d :: b)).length := Nat.lt_of_lt_of_le (Nat.succ_pos _)
        (length_le_encode (d :: b))
      obtain ⟨byte, bytes, hcons⟩ := List.exists_cons_of_length_pos hbytes
      rw [hcons]
      exact List.nil_lt_cons byte bytes
  | cons c a ih =>
    cases b with
    | nil => exact absurd h (List.not_lt_nil (c :: a))
    | cons d b =>
      rw [encode_cons, encode_cons]
      rcases List.cons_lt_cons_iff.mp h with hcd | ⟨rfl, hab⟩
      · exact utf8EncodeChar_lt hcd _ _
      · exact List.append_left_lt (ih hab)

/-- Texts are in the order of the bytes that encode them. -/
theorem lt_iff_encode_lt {a b : List Char} : a < b ↔ encode a < encode b := by
  refine ⟨encode_lt, fun h => ?_⟩
  by_contra hab
  have hba : b < a := by
    by_contra hba
    obtain rfl : a = b := List.le_antisymm (List.not_lt.mp hba) (List.not_lt.mp hab)
    exact List.lt_irrefl (encode a) h
  exact List.lt_asymm h (encode_lt hba)

theorem encode_inj {a b : List Char} : encode a = encode b ↔ a = b := by
  refine ⟨fun h => ?_, congrArg encode⟩
  have hab : ¬ a < b := by
    rw [lt_iff_encode_lt, h]
    exact List.lt_irrefl (encode b)
  have hba : ¬ b < a := by
    rw [lt_iff_encode_lt, h]
    exact List.lt_irrefl (encode b)
  exact List.le_antisymm (List.not_lt.mp hba) (List.not_lt.mp hab)

end Text

namespace Comparison

theorem orderStrings_of_lt {a b : String} (h : a < b) : orderStrings a b = .lt := if_pos h

theorem orderStrings_self (a : String) : orderStrings a a = .eq := by
  have hlt : ¬ a < a := List.lt_irrefl a.toList
  rw [orderStrings, if_neg hlt, if_pos rfl]

theorem orderStrings_of_gt {a b : String} (h : b < a) : orderStrings a b = .gt := by
  have hlt : ¬ a < b := List.lt_asymm h
  have hne : a ≠ b := fun heq => List.lt_irrefl a.toList (heq ▸ h)
  rw [orderStrings, if_neg hlt, if_neg hne]

theorem string_trichotomy (a b : String) : a < b ∨ a = b ∨ b < a := by
  by_cases hlt : a < b
  · exact .inl hlt
  by_cases hgt : b < a
  · exact .inr (.inr hgt)
  · exact .inr (.inl (String.toList_inj.mp
      (List.le_antisymm (List.not_lt.mp hgt) (List.not_lt.mp hlt))))

theorem orderStrings_eq_lt_iff {a b : String} : orderStrings a b = .lt ↔ a < b := by
  refine ⟨fun h => ?_, orderStrings_of_lt⟩
  rcases string_trichotomy a b with hlt | rfl | hgt
  · exact hlt
  · cases (orderStrings_self a).symm.trans h
  · cases (orderStrings_of_gt hgt).symm.trans h

theorem orderStrings_eq_eq_iff {a b : String} : orderStrings a b = .eq ↔ a = b := by
  refine ⟨fun h => ?_, fun h => h ▸ orderStrings_self a⟩
  rcases string_trichotomy a b with hlt | heq | hgt
  · cases (orderStrings_of_lt hlt).symm.trans h
  · exact heq
  · cases (orderStrings_of_gt hgt).symm.trans h

theorem orderStrings_eq_gt_iff {a b : String} : orderStrings a b = .gt ↔ b < a := by
  refine ⟨fun h => ?_, orderStrings_of_gt⟩
  rcases string_trichotomy a b with hlt | rfl | hgt
  · cases (orderStrings_of_lt hlt).symm.trans h
  · cases (orderStrings_self a).symm.trans h
  · exact hgt

end Comparison

end Lisplet
