import Mathlib

/-!
# Updates by linear combinations

A family of cells, each holding a vector, is changed by updates: a multiple of one cell is added to
another, a cell becomes a linear combination of two cells, or a cell is copied.  The cells of an
update may coincide.  After any number of updates every cell is a fixed linear combination of the
initial cells, whatever the vectors are.

## Main definitions

* `LinearUpdate`, `LinearUpdate.apply` — the updates and what they do.
* `LinearUpdate.map` — other factors in the place of those of an update.
* `LinearUpdate.combination` — the linear combinations after a list of updates.

## Main results

* `LinearUpdate.run_eq_combination` — the cells are these combinations of the initial ones.
-/

universe u

/-- An update of a family of cells. -/
inductive LinearUpdate (R φ : Type u) : Type u
  | axpy (destination : φ) (factor : R) (source : φ)
  | lincomb (destination : φ) (leftFactor : R) (left : φ) (rightFactor : R) (right : φ)
  | copy (source destination : φ)
  deriving DecidableEq

namespace LinearUpdate

/-- The update with its factors replaced. -/
def map {R S φ : Type u} (f : R → S) : LinearUpdate R φ → LinearUpdate S φ
  | axpy destination factor source => axpy destination (f factor) source
  | lincomb destination leftFactor left rightFactor right =>
    lincomb destination (f leftFactor) left (f rightFactor) right
  | copy source destination => copy source destination

variable {R φ : Type u} [DecidableEq φ] [Semiring R]

section

variable {M : Type*} [AddCommMonoid M] [Module R M]

/-- What an update does to the cells. -/
def apply (cells : φ → M) : LinearUpdate R φ → φ → M
  | axpy destination factor source =>
    Function.update cells destination (cells destination + factor • cells source)
  | lincomb destination leftFactor left rightFactor right =>
    Function.update cells destination (leftFactor • cells left + rightFactor • cells right)
  | copy source destination => Function.update cells destination (cells source)

/-- The cells after a list of updates. -/
def run (updates : List (LinearUpdate R φ)) (cells : φ → M) : φ → M :=
  updates.foldl apply cells

/-- Updates commute with linear maps. -/
lemma apply_map {N : Type*} [AddCommMonoid N] [Module R N] (L : M →ₗ[R] N) (cells : φ → M)
    (update : LinearUpdate R φ) :
    apply (fun cell => L (cells cell)) update = fun cell => L (apply cells update cell) := by
  funext cell
  cases update with
  | axpy destination factor source =>
    by_cases h : cell = destination
    · subst h
      simp [apply]
    · simp [apply, h]
  | lincomb destination leftFactor left rightFactor right =>
    by_cases h : cell = destination
    · subst h
      simp [apply]
    · simp [apply, h]
  | copy source destination =>
    by_cases h : cell = destination
    · subst h
      simp [apply]
    · simp [apply, h]

/-- Lists of updates commute with linear maps. -/
lemma run_map {N : Type*} [AddCommMonoid N] [Module R N] (L : M →ₗ[R] N)
    (updates : List (LinearUpdate R φ)) (cells : φ → M) :
    run updates (fun cell => L (cells cell)) = fun cell => L (run updates cells cell) := by
  induction updates generalizing cells with
  | nil => rfl
  | cons update rest ih =>
    show run rest (apply (fun cell => L (cells cell)) update) = _
    rw [apply_map, ih]
    rfl

end

/-- The combination of the initial cells that every cell holds after a list of updates. -/
noncomputable def combination (updates : List (LinearUpdate R φ)) : φ → φ →₀ R :=
  run updates fun cell => Finsupp.single cell 1

/-- **After a list of updates the cells are linear combinations of the initial ones.** -/
theorem run_eq_combination {M : Type*} [AddCommMonoid M] [Module R M]
    (updates : List (LinearUpdate R φ)) (cells : φ → M) (cell : φ) :
    run updates cells cell =
      (combination updates cell).sum fun initial factor => factor • cells initial := by
  have hstart : cells = fun cell => Finsupp.linearCombination R cells (Finsupp.single cell 1) := by
    funext cell
    simp
  conv_lhs => rw [hstart]
  rw [run_map]
  rfl

end LinearUpdate
