/-!
# Order — strict total orders on keys

Names, paths and positions are kept and printed in one fixed order each.  A key type carries that order as a function
into `Bool` together with the three laws that make it a strict total order.  Lists are ordered lexicographically
(`instKeyOrderList`): a proper beginning comes first, otherwise the first difference decides.
-/
namespace Stencil

/-- A strict total order on keys, decided by a function. -/
class KeyOrder (κ : Type) where
  lt : κ → κ → Bool
  irrefl : ∀ a, lt a a = false
  trans : ∀ a b c, lt a b = true → lt b c = true → lt a c = true
  eq_of_not_lt : ∀ a b, lt a b = false → lt b a = false → a = b

namespace KeyOrder

variable {κ : Type} [KeyOrder κ]

def le (a b : κ) : Bool := !lt b a

theorem asymm {a b : κ} (h : lt a b = true) : lt b a = false := by
  cases hba : lt b a with
  | false => rfl
  | true => have := trans a b a h hba; rw [irrefl] at this; cases this

theorem ne_of_lt {a b : κ} (h : lt a b = true) : a ≠ b := by
  rintro rfl; rw [irrefl] at h; cases h

end KeyOrder

open KeyOrder (lt)

theorem blt_eq_false {a b : Nat} : Nat.blt a b = false ↔ b ≤ a := by
  rw [← Bool.not_eq_true, Nat.blt_eq]; omega

instance : KeyOrder Nat where
  lt a b := Nat.blt a b
  irrefl _ := blt_eq_false.2 (Nat.le_refl _)
  trans a b c := by simp only [Nat.blt_eq]; omega
  eq_of_not_lt _ _ h₁ h₂ := Nat.le_antisymm (blt_eq_false.1 h₂) (blt_eq_false.1 h₁)

instance : KeyOrder UInt8 where
  lt a b := Nat.blt a.toNat b.toNat
  irrefl _ := blt_eq_false.2 (Nat.le_refl _)
  trans a b c := by simp only [Nat.blt_eq]; omega
  eq_of_not_lt _ _ h₁ h₂ :=
    UInt8.toNat_inj.1 (Nat.le_antisymm (blt_eq_false.1 h₂) (blt_eq_false.1 h₁))

/-- Whether one list comes before another: letter by letter, a proper beginning first. -/
def lexLt {κ : Type} [KeyOrder κ] : List κ → List κ → Bool
  | _, [] => false
  | [], _ :: _ => true
  | a :: x, b :: y => lt a b || (!lt b a && lexLt x y)

namespace KeyOrder

variable {κ : Type} [KeyOrder κ]

theorem lexLt_cons (a b : κ) (x y : List κ) :
    lexLt (a :: x) (b :: y) = true ↔ lt a b = true ∨ (a = b ∧ lexLt x y = true) := by
  simp only [lexLt, Bool.or_eq_true, Bool.and_eq_true, Bool.not_eq_true']
  constructor
  · rintro (h | ⟨h, hxy⟩)
    · exact .inl h
    · cases hab : lt a b with
      | true => exact .inl rfl
      | false => exact .inr ⟨eq_of_not_lt a b hab h, hxy⟩
  · rintro (h | ⟨rfl, hxy⟩)
    · exact .inl h
    · exact .inr ⟨irrefl a, hxy⟩

theorem lexLt_append_left (x y z : List κ) : lexLt (x ++ y) (x ++ z) = lexLt y z := by
  induction x with
  | nil => rfl
  | cons a x ih => simp [lexLt, irrefl, ih]

theorem lexLt_append_self (x y : List κ) : lexLt (x ++ y) x = false := by
  induction x with
  | nil => exact lexLt.eq_1 _
  | cons a x ih => simp [lexLt, irrefl, ih]

theorem lexLt_irrefl : ∀ x : List κ, lexLt x x = false
  | [] => rfl
  | a :: x => by simp [lexLt, irrefl, lexLt_irrefl x]

theorem lexLt_trans : ∀ x y z : List κ, lexLt x y = true → lexLt y z = true → lexLt x z = true
  | _, _, [], _, h => by simp [lexLt] at h
  | _, [], _ :: _, h, _ => by simp [lexLt] at h
  | [], _ :: _, _ :: _, _, _ => rfl
  | a :: x, b :: y, c :: z, h₁, h₂ => by
    rw [lexLt_cons] at h₁ h₂ ⊢
    rcases h₁ with h₁ | ⟨rfl, h₁⟩ <;> rcases h₂ with h₂ | ⟨rfl, h₂⟩
    · exact .inl (trans _ _ _ h₁ h₂)
    · exact .inl h₁
    · exact .inl h₂
    · exact .inr ⟨rfl, lexLt_trans x y z h₁ h₂⟩

theorem eq_of_not_lexLt : ∀ x y : List κ, lexLt x y = false → lexLt y x = false → x = y
  | [], [], _, _ => rfl
  | [], _ :: _, h, _ => by simp [lexLt] at h
  | _ :: _, [], _, h => by simp [lexLt] at h
  | a :: x, b :: y, h₁, h₂ => by
    simp only [lexLt, Bool.or_eq_false_iff, Bool.and_eq_false_iff, Bool.not_eq_false'] at h₁ h₂
    obtain rfl : a = b := eq_of_not_lt a b h₁.1 h₂.1
    rw [irrefl] at h₁ h₂
    simp only [Bool.false_eq_true, false_or] at h₁ h₂
    rw [eq_of_not_lexLt x y h₁.2 h₂.2]

end KeyOrder

instance instKeyOrderList {κ : Type} [KeyOrder κ] : KeyOrder (List κ) where
  lt := lexLt
  irrefl := KeyOrder.lexLt_irrefl
  trans := KeyOrder.lexLt_trans
  eq_of_not_lt := KeyOrder.eq_of_not_lexLt

end Stencil
