import BoxDescent.Proofs.Exact
import BoxDescent.Objective

/-!
# Coordinates

A vector of real numbers as the function that reads its entries, and a matrix stored by
rows as a matrix.  Each operation on stored vectors is the operation on coordinates of
the same name; sums in index order are sums over the indices.
-/

namespace BoxDescent

open Matrix

variable {m n : Nat}

/-! ### Vectors -/

/-- The entries of a vector by index. -/
def coords {β : Type} (v : Vector β n) : Fin n → β := fun i => v[i]

theorem coords_apply {β : Type} (v : Vector β n) (i : Fin n) : coords v i = v[i] := rfl

theorem coords_injective {β : Type} : Function.Injective (coords : Vector β n → Fin n → β) := by
  intro u v h
  apply Vector.ext
  intro i hi
  exact congrFun h ⟨i, hi⟩

theorem eq_of_one_variable {β : Type} {u v : Vector β 1} (h : coords u 0 = coords v 0) :
    u = v := by
  apply coords_injective
  funext i
  rw [Subsingleton.elim i 0]
  exact h

@[simp] theorem coords_ofFn {β : Type} (f : Fin n → β) : coords (Vector.ofFn f) = f := by
  funext i
  simp [coords]

@[simp] theorem coords_replicate {β : Type} (a : β) :
    coords (Vector.replicate n a) = fun _ => a := by
  funext i
  simp [coords]

theorem coords_eq_zero_iff {v : Vector ℝ n} : coords v = 0 ↔ v = Vector.replicate n 0 := by
  constructor
  · intro h
    apply coords_injective
    rw [h, coords_replicate]
    rfl
  · intro h
    rw [h, coords_replicate]
    rfl

@[simp] theorem coords_add (u v : Vector ℝ n) : coords (u + v) = coords u + coords v := by
  funext i
  simp [coords]

@[simp] theorem coords_sub (u v : Vector ℝ n) : coords (u - v) = coords u - coords v := by
  funext i
  simp [coords]

@[simp] theorem coords_neg (v : Vector ℝ n) : coords (-v) = -coords v := by
  funext i
  simp [coords]

@[simp] theorem coords_map {β γ : Type} (f : β → γ) (v : Vector β n) :
    coords (v.map f) = fun i => f (coords v i) := by
  funext i
  simp [coords]

@[simp] theorem coords_addScaled (u : Vector ℝ n) (a : ℝ) (v : Vector ℝ n) :
    coords (addScaled u a v) = coords u + a • coords v := by
  funext i
  simp [addScaled, coords]

@[simp] theorem coords_divide (v : Vector ℝ n) (a : ℝ) :
    coords (divide v a) = a⁻¹ • coords v := by
  funext i
  simp [divide, coords, div_eq_inv_mul]

@[simp] theorem coords_set {β : Type} (v : Vector β n) (i : Fin n) (a : β) :
    coords (v.set i a i.isLt) = Function.update (coords v) i a := by
  funext j
  by_cases h : j = i
  · subst h
    simp [coords]
  · have hne : (i : Nat) ≠ j := fun e => h (Fin.ext e.symm)
    simp [coords, Function.update_of_ne h, hne]

theorem coords_swap {β : Type} (v : Vector β n) (i j : Fin n) :
    coords (v.swap i j i.isLt j.isLt) = coords v ∘ Equiv.swap i j := by
  funext l
  rw [Function.comp_apply, coords_apply, getElem_eq_val, Vector.getElem_swap,
    Equiv.swap_apply_def]
  simp only [Fin.ext_iff]
  split
  · rfl
  · split
    · rfl
    · rfl

/-! ### Sums -/

/-- What every step of a fold keeps holds at its end. -/
theorem foldl_invariant {β : Type} (P : Nat → β → Prop) {f : β → Fin n → β} {a : β}
    (hstart : P 0 a) (hstep : ∀ (i : Fin n) (acc : β), P i acc → P (i + 1) (f acc i)) :
    P n (Fin.foldl n f a) := by
  induction n with
  | zero => exact hstart
  | succ n ih =>
    rw [Fin.foldl_succ_last]
    exact hstep (Fin.last n) _ (ih fun i acc h => hstep i.castSucc acc h)

theorem foldl_add (f : Fin n → ℝ) (a : ℝ) :
    Fin.foldl n (fun acc i => acc + f i) a = a + ∑ i, f i := by
  induction n with
  | zero => simp
  | succ n ih =>
    rw [Fin.foldl_succ_last, ih, Fin.sum_univ_castSucc, add_assoc]

theorem foldl_sub (f : Fin n → ℝ) (a : ℝ) :
    Fin.foldl n (fun acc i => acc - f i) a = a - ∑ i, f i := by
  induction n with
  | zero => simp
  | succ n ih =>
    rw [Fin.foldl_succ_last, ih, Fin.sum_univ_castSucc, sub_sub]

theorem sum_eq (f : Fin n → ℝ) : BoxDescent.sum f = ∑ i, f i := by
  have h := foldl_add f 0
  rw [zero_add] at h
  exact h

theorem dot_eq (u v : Vector ℝ n) : dot u v = coords u ⬝ᵥ coords v := sum_eq _

theorem dot_singleton (a b : ℝ) : dot #v[a] #v[b] = a * b := zero_add (a * b)

theorem sub_pair (a b c d : ℝ) : (#v[a, b] : Vector ℝ 2) - #v[c, d] = #v[a - c, b - d] := by
  apply coords_injective
  rw [coords_sub]
  funext i
  fin_cases i <;> rfl

theorem neg_pair (a b : ℝ) : -(#v[a, b] : Vector ℝ 2) = #v[-a, -b] := by
  apply coords_injective
  rw [coords_neg]
  funext i
  fin_cases i <;> rfl

theorem dot_pair (a b c d : ℝ) : dot #v[a, b] #v[c, d] = a * c + b * d := by
  rw [dot_eq, dotProduct, Fin.sum_univ_two]
  rfl

theorem sqrt_dot_singleton (a : ℝ) : Scalar.sqrt (dot #v[a] #v[a]) = |a| := by
  rw [dot_singleton]
  exact Real.sqrt_mul_self_eq_abs a

theorem lessDot_eq (a : ℝ) (u v : Vector ℝ n) :
    lessDot a u v = a - coords u ⬝ᵥ coords v := foldl_sub _ a

theorem allFinite_real (v : Vector ℝ n) : allFinite v = true := by
  simp [allFinite]

/-- In exact arithmetic an evaluation fails by a gradient of the wrong length only. -/
theorem Evaluation.isFinite_real (e : Evaluation ℝ n) : e.isFinite = !e.isReplaced := by
  rw [isFinite, allFinite_real, Scalar.isFinite_real, Bool.and_true, Bool.and_true]

theorem dot_self_nonneg (v : Vector ℝ n) : 0 ≤ dot v v := by
  rw [dot_eq]
  exact Finset.sum_nonneg fun i _ => mul_self_nonneg _

theorem dot_self_eq_zero {v : Vector ℝ n} : dot v v = 0 ↔ coords v = 0 := by
  rw [dot_eq]
  exact dotProduct_self_eq_zero

/-! ### Matrices -/

/-- A matrix stored by rows, as a matrix. -/
def Mat.toMatrix {β : Type} (a : Mat β m n) : Matrix (Fin m) (Fin n) β :=
  Matrix.of fun i j => a[i][j]

@[simp] theorem Mat.toMatrix_ofFn {β : Type} (f : Fin m → Fin n → β) :
    (Mat.ofFn f).toMatrix = Matrix.of f := by
  ext i j
  simp [Mat.toMatrix, Mat.ofFn]

@[simp] theorem coords_mulVec (a : Mat ℝ m n) (x : Vector ℝ n) :
    coords (Mat.mulVec a x) = a.toMatrix *ᵥ coords x := by
  funext i
  simp only [Mat.mulVec, coords_ofFn, dot_eq]
  rfl

theorem posDef_iff_real {a : Matrix (Fin n) (Fin n) ℝ} :
    a.PosDef ↔ a.IsSymm ∧ ∀ x, x ≠ 0 → 0 < x ⬝ᵥ a *ᵥ x := by
  rw [posDef_iff_dotProduct_mulVec]
  exact Iff.rfl

theorem dotProduct_mulVec_symm {a : Matrix (Fin n) (Fin n) ℝ} (h : a.IsSymm)
    (u v : Fin n → ℝ) : u ⬝ᵥ a *ᵥ v = a *ᵥ u ⬝ᵥ v := by
  rw [dotProduct_mulVec, ← mulVec_transpose, h.eq]

end BoxDescent
