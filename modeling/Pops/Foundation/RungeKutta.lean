import Mathlib

/-!
# Runge–Kutta methods and their order conditions

A Runge–Kutta method is given by a matrix of stage coefficients and a row of weights.  Its order
conditions are indexed by rooted trees: each tree has a density and an elementary weight, and a
method satisfies the condition of a tree when their product is one.  The vertices are coloured,
which covers partitioned methods: every colour has a matrix and weights of its own.  Here the trees
with at most four vertices are listed, and the trees that are paths are connected with the action of
a method on linear equations.

## Main definitions

* `RungeKutta.Tree` — rooted trees with coloured vertices.
* `RungeKutta.Tree.Condition`, `HasOrder` — the order conditions.
* `RungeKutta.IsStep` — one step of a method.
* `RungeKutta.stability` — the coefficients of the stability function of an explicit method.

## Main results

* `RungeKutta.conditions_one_iff` … `conditions_four_iff` — the conditions of the trees with one,
  two, three and four vertices.
* `RungeKutta.isStep_linear_iff` — on a linear equation, a step of an explicit method applies the
  polynomial with the stability coefficients.
* `RungeKutta.HasOrder.stability_eq` — up to its order, that polynomial is the exponential series.
-/

namespace RungeKutta

/-! ## Trees -/

variable {κ : Type*}

/-- A rooted tree with a colour at every vertex. -/
inductive Tree (κ : Type*)
  | node (colour : κ) (children : List (Tree κ))

namespace Tree

/-- The colour of the root. -/
def colour : Tree κ → κ
  | .node colour _ => colour

mutual
/-- The number of the vertices. -/
def size : Tree κ → ℕ
  | .node _ children => sizes children + 1

/-- The number of the vertices of a list of trees. -/
def sizes : List (Tree κ) → ℕ
  | [] => 0
  | t :: ts => size t + sizes ts
end

mutual
/-- The density: the product, over the vertices, of the sizes of the trees that hang from them. -/
def density : Tree κ → ℕ
  | .node _ children => (sizes children + 1) * densities children

/-- The product of the densities of a list of trees. -/
def densities : List (Tree κ) → ℕ
  | [] => 1
  | t :: ts => density t * densities ts
end

/-- The tree with one vertex. -/
def leaf (k : κ) : Tree κ := .node k []

/-- The path with one more vertex than the number given. -/
def path (k : κ) : ℕ → Tree κ
  | 0 => leaf k
  | n + 1 => .node k [path k n]

/-- A tree has a root. -/
lemma size_pos (t : Tree κ) : 0 < t.size := by
  cases t
  simp [size]

/-- The size of a tree, in its subtrees. -/
@[simp] lemma size_node (k : κ) (ts : List (Tree κ)) : (node k ts).size = sizes ts + 1 := by
  simp [size]

/-- No trees have no vertices. -/
@[simp] lemma sizes_nil : sizes ([] : List (Tree κ)) = 0 := by simp [sizes]

/-- The size of a first tree and the others. -/
@[simp] lemma sizes_cons (t : Tree κ) (ts : List (Tree κ)) :
    sizes (t :: ts) = t.size + sizes ts := by
  simp [sizes]

/-- The density of a tree is its size times those of its subtrees. -/
@[simp] lemma density_node (k : κ) (ts : List (Tree κ)) :
    (node k ts).density = (sizes ts + 1) * densities ts := by
  simp [density]

/-- The empty product of densities. -/
@[simp] lemma densities_nil : densities ([] : List (Tree κ)) = 1 := by simp [densities]

/-- The densities of a first tree and the others. -/
@[simp] lemma densities_cons (t : Tree κ) (ts : List (Tree κ)) :
    densities (t :: ts) = t.density * densities ts := by
  simp [densities]

/-- The colour of a tree is that of its root. -/
@[simp] lemma colour_node (k : κ) (ts : List (Tree κ)) : (node k ts).colour = k := rfl

/-- The size of a path. -/
@[simp] lemma size_path (k : κ) (n : ℕ) : (path k n).size = n + 1 := by
  induction n with
  | zero => simp [path, leaf]
  | succ n ih => simp [path, ih]

/-- The density of a path is a factorial. -/
@[simp] lemma density_path (k : κ) (n : ℕ) : (path k n).density = (n + 1).factorial := by
  induction n with
  | zero => simp [path, leaf]
  | succ n ih => simp [path, ih, Nat.factorial_succ (n + 1)]

/-- The colour of a path. -/
@[simp] lemma colour_path (k : κ) (n : ℕ) : (path k n).colour = k := by
  cases n <;> rfl

/-! ### The trees with at most four vertices -/

/-- No tree hangs from a vertex when nothing hangs from it. -/
lemma sizes_eq_zero {ts : List (Tree κ)} (h : sizes ts = 0) : ts = [] := by
  cases ts with
  | nil => rfl
  | cons t ts =>
    have hpos := t.size_pos
    rw [sizes_cons] at h
    omega

/-- The tree with one vertex. -/
lemma eq_of_size_one {t : Tree κ} (h : t.size = 1) : ∃ k, t = leaf k := by
  obtain ⟨k, ts⟩ := t
  rw [size_node] at h
  exact ⟨k, by rw [leaf, sizes_eq_zero (by omega : sizes ts = 0)]⟩

/-- The lists of trees with one vertex. -/
lemma eq_of_sizes_one {ts : List (Tree κ)} (h : sizes ts = 1) : ∃ k, ts = [leaf k] := by
  cases ts with
  | nil => simp at h
  | cons t ts =>
    have hpos := t.size_pos
    rw [sizes_cons] at h
    obtain ⟨k, rfl⟩ := eq_of_size_one (by omega : t.size = 1)
    exact ⟨k, by rw [sizes_eq_zero (by omega : sizes ts = 0)]⟩

/-- The trees with two vertices. -/
lemma eq_of_size_two {t : Tree κ} (h : t.size = 2) : ∃ k l, t = node k [leaf l] := by
  obtain ⟨k, ts⟩ := t
  rw [size_node] at h
  obtain ⟨l, rfl⟩ := eq_of_sizes_one (by omega : sizes ts = 1)
  exact ⟨k, l, rfl⟩

/-- The lists of trees with two vertices. -/
lemma eq_of_sizes_two {ts : List (Tree κ)} (h : sizes ts = 2) :
    (∃ k l, ts = [leaf k, leaf l]) ∨ ∃ k l, ts = [node k [leaf l]] := by
  cases ts with
  | nil => simp at h
  | cons t ts =>
    have hpos := t.size_pos
    rw [sizes_cons] at h
    rcases (by omega : t.size = 1 ∨ t.size = 2) with h1 | h2
    · obtain ⟨k, rfl⟩ := eq_of_size_one h1
      obtain ⟨l, rfl⟩ := eq_of_sizes_one (by omega : sizes ts = 1)
      exact .inl ⟨k, l, rfl⟩
    · obtain ⟨k, l, rfl⟩ := eq_of_size_two h2
      exact .inr ⟨k, l, by rw [sizes_eq_zero (by omega : sizes ts = 0)]⟩

/-- The trees with three vertices. -/
lemma eq_of_size_three {t : Tree κ} (h : t.size = 3) :
    (∃ k l m, t = node k [leaf l, leaf m]) ∨ ∃ k l m, t = node k [node l [leaf m]] := by
  obtain ⟨k, ts⟩ := t
  rw [size_node] at h
  rcases eq_of_sizes_two (by omega : sizes ts = 2) with ⟨l, m, rfl⟩ | ⟨l, m, rfl⟩
  · exact .inl ⟨k, l, m, rfl⟩
  · exact .inr ⟨k, l, m, rfl⟩

/-- The trees with four vertices. -/
lemma eq_of_size_four {t : Tree κ} (h : t.size = 4) :
    (∃ k l m n, t = node k [leaf l, leaf m, leaf n]) ∨
    (∃ k l m n, t = node k [leaf l, node m [leaf n]]) ∨
    (∃ k l m n, t = node k [node m [leaf n], leaf l]) ∨
    (∃ k l m n, t = node k [node l [leaf m, leaf n]]) ∨
    ∃ k l m n, t = node k [node l [node m [leaf n]]] := by
  obtain ⟨k, ts⟩ := t
  rw [size_node] at h
  cases ts with
  | nil => simp at h
  | cons t ts =>
    have hpos := t.size_pos
    rw [sizes_cons] at h
    rcases (by omega : t.size = 1 ∨ t.size = 2 ∨ t.size = 3) with h1 | h2 | h3
    · obtain ⟨l, rfl⟩ := eq_of_size_one h1
      rcases eq_of_sizes_two (by omega : sizes ts = 2) with ⟨m, n, rfl⟩ | ⟨m, n, rfl⟩
      · exact .inl ⟨k, l, m, n, rfl⟩
      · exact .inr (.inl ⟨k, l, m, n, rfl⟩)
    · obtain ⟨m, n, rfl⟩ := eq_of_size_two h2
      obtain ⟨l, rfl⟩ := eq_of_sizes_one (by omega : sizes ts = 1)
      exact .inr (.inr (.inl ⟨k, l, m, n, rfl⟩))
    · have hnil := sizes_eq_zero (by omega : sizes ts = 0)
      rcases eq_of_size_three h3 with ⟨l, m, n, rfl⟩ | ⟨l, m, n, rfl⟩
      · exact .inr (.inr (.inr (.inl ⟨k, l, m, n, by rw [hnil]⟩)))
      · exact .inr (.inr (.inr (.inr ⟨k, l, m, n, by rw [hnil]⟩)))

end Tree

/-! ## Order conditions -/

section Conditions

variable {ι R : Type*} [Fintype ι] [CommRing R]

/-- The product of a matrix with a vector. -/
def matvec (A : ι → ι → R) (x : ι → R) (i : ι) : R := ∑ j, A i j * x j

/-- The nodes of a method: the sums of the rows of its matrix. -/
def nodes (A : ι → ι → R) : ι → R := matvec A 1

variable (A : κ → ι → ι → R) (b : κ → ι → R)

namespace Tree

mutual
/-- The stage weights of a tree: a product over the trees that hang from the root. -/
def weight : Tree κ → ι → R
  | .node _ children => weights children

/-- The product of the stage weights of a list of trees, each one carried over an edge. -/
def weights : List (Tree κ) → ι → R
  | [], _ => 1
  | .node k children :: ts, i => matvec (A k) (weights children) i * weights ts i
end

/-- The elementary weight of a tree. -/
def elementary (t : Tree κ) : R := ∑ i, b t.colour i * t.weight A i

/-- The order condition of a tree. -/
def Condition (t : Tree κ) : Prop := (t.density : R) * t.elementary A b = 1

/-- The weight of a tree is the product of those of its subtrees. -/
@[simp] lemma weight_node (k : κ) (ts : List (Tree κ)) : (node k ts).weight A = weights A ts := by
  funext i
  simp [weight]

/-- The empty product of weights. -/
@[simp] lemma weights_nil : weights A [] = 1 := by
  funext i
  simp [weights]

/-- A subtree contributes the matrix of its colour applied to its weight. -/
@[simp] lemma weights_cons (k : κ) (ts us : List (Tree κ)) :
    weights A (node k ts :: us) = matvec (A k) (weights A ts) * weights A us := by
  funext i
  simp [weights]

/-- A leaf contributes the nodes of its colour. -/
@[simp] lemma weights_leaf (k : κ) (us : List (Tree κ)) :
    weights A (leaf k :: us) = nodes (A k) * weights A us := by
  simp [leaf, nodes]

/-- The weight of a path is a power of the matrix. -/
lemma weight_path (k : κ) (n : ℕ) : (path k n).weight A = (matvec (A k))^[n] 1 := by
  induction n with
  | zero => simp [path, leaf]
  | succ n ih =>
    rw [Function.iterate_succ_apply', ← ih]
    cases n with
    | zero => simp [path, leaf]
    | succ n => simp [path]

end Tree

open RungeKutta.Tree

/-- The method satisfies the conditions of all trees with at most `p` vertices. -/
def HasOrder (p : ℕ) : Prop := ∀ t : Tree κ, t.size ≤ p → t.Condition A b

variable {A b}

/-- A method has every smaller order, too. -/
lemma HasOrder.mono {p q : ℕ} (h : HasOrder A b q) (hpq : p ≤ q) : HasOrder A b p :=
  fun t ht => h t (ht.trans hpq)

/-- Order zero asks nothing. -/
lemma hasOrder_zero : HasOrder A b 0 := fun t ht => absurd t.size_pos (by omega)

/-- One more order asks the conditions of the trees of one more vertex. -/
lemma hasOrder_succ_iff {p : ℕ} :
    HasOrder A b (p + 1) ↔ HasOrder A b p ∧ ∀ t : Tree κ, t.size = p + 1 → t.Condition A b := by
  constructor
  · exact fun h => ⟨h.mono (by omega), fun t ht => h t ht.le⟩
  · rintro ⟨h, hnext⟩ t ht
    rcases Nat.lt_or_ge t.size (p + 1) with hlt | hge
    · exact h t (by omega)
    · exact hnext t (by omega)

/-- The condition of the tree with one vertex. -/
theorem conditions_one_iff :
    (∀ t : Tree κ, t.size = 1 → t.Condition A b) ↔ ∀ k, ∑ i, b k i = 1 := by
  have hleaf : ∀ k, (leaf k).Condition A b ↔ ∑ i, b k i = 1 := fun k => by
    simp [Condition, elementary, leaf]
  constructor
  · exact fun h k => (hleaf k).mp (h _ (by simp [leaf]))
  · intro h t ht
    obtain ⟨k, rfl⟩ := eq_of_size_one ht
    exact (hleaf k).mpr (h k)

/-- The conditions of the trees with two vertices. -/
lemma conditions_two_iff :
    (∀ t : Tree κ, t.size = 2 → t.Condition A b) ↔
      ∀ k l, 2 * ∑ i, b k i * nodes (A l) i = 1 := by
  have htree : ∀ k l, (node k [leaf l]).Condition A b ↔ 2 * ∑ i, b k i * nodes (A l) i = 1 :=
    fun k l => by
      simp [Condition, elementary, show (leaf l).size = 1 by simp [leaf],
        show (leaf l).density = 1 by simp [leaf], one_add_one_eq_two]
  constructor
  · exact fun h k l => (htree k l).mp (h _ (by simp [leaf]))
  · intro h t ht
    obtain ⟨k, l, rfl⟩ := eq_of_size_two ht
    exact (htree k l).mpr (h k l)

/-- The conditions of the trees with three vertices. -/
lemma conditions_three_iff :
    (∀ t : Tree κ, t.size = 3 → t.Condition A b) ↔
      (∀ k l m, 3 * ∑ i, b k i * (nodes (A l) i * nodes (A m) i) = 1) ∧
      ∀ k l m, 6 * ∑ i, b k i * matvec (A l) (nodes (A m)) i = 1 := by
  have hbush : ∀ k l m, (node k [leaf l, leaf m]).Condition A b ↔
      3 * ∑ i, b k i * (nodes (A l) i * nodes (A m) i) = 1 := fun k l m => by
    simp [Condition, elementary, leaf, nodes]
  have htall : ∀ k l m, (node k [node l [leaf m]]).Condition A b ↔
      6 * ∑ i, b k i * matvec (A l) (nodes (A m)) i = 1 := fun k l m => by
    simp [Condition, elementary, leaf, nodes]
  constructor
  · exact fun h => ⟨fun k l m => (hbush k l m).mp (h _ (by simp [leaf])),
      fun k l m => (htall k l m).mp (h _ (by simp [leaf]))⟩
  · rintro ⟨h1, h2⟩ t ht
    rcases eq_of_size_three ht with ⟨k, l, m, rfl⟩ | ⟨k, l, m, rfl⟩
    · exact (hbush k l m).mpr (h1 k l m)
    · exact (htall k l m).mpr (h2 k l m)

/-- The conditions of the trees with four vertices. -/
theorem conditions_four_iff :
    (∀ t : Tree κ, t.size = 4 → t.Condition A b) ↔
      (∀ k l m n, 4 * ∑ i, b k i * (nodes (A l) i * (nodes (A m) i * nodes (A n) i)) = 1) ∧
      (∀ k l m n, 8 * ∑ i, b k i * (nodes (A l) i * matvec (A m) (nodes (A n)) i) = 1) ∧
      (∀ k l m n, 12 * ∑ i, b k i * matvec (A l) (nodes (A m) * nodes (A n)) i = 1) ∧
      ∀ k l m n, 24 * ∑ i, b k i * matvec (A l) (matvec (A m) (nodes (A n))) i = 1 := by
  have hbush : ∀ k l m n, (node k [leaf l, leaf m, leaf n]).Condition A b ↔
      4 * ∑ i, b k i * (nodes (A l) i * (nodes (A m) i * nodes (A n) i)) = 1 := fun k l m n => by
    simp [Condition, elementary, leaf, nodes]
  have hright : ∀ k l m n, (node k [leaf l, node m [leaf n]]).Condition A b ↔
      8 * ∑ i, b k i * (nodes (A l) i * matvec (A m) (nodes (A n)) i) = 1 := fun k l m n => by
    simp [Condition, elementary, leaf, nodes]
  have hleft : ∀ k l m n, (node k [node m [leaf n], leaf l]).Condition A b ↔
      8 * ∑ i, b k i * (nodes (A l) i * matvec (A m) (nodes (A n)) i) = 1 := fun k l m n => by
    rw [← hright]
    simp [Condition, elementary, leaf, mul_comm]
  have hfork : ∀ k l m n, (node k [node l [leaf m, leaf n]]).Condition A b ↔
      12 * ∑ i, b k i * matvec (A l) (nodes (A m) * nodes (A n)) i = 1 := fun k l m n => by
    simp [Condition, elementary, leaf, nodes]
  have htall : ∀ k l m n, (node k [node l [node m [leaf n]]]).Condition A b ↔
      24 * ∑ i, b k i * matvec (A l) (matvec (A m) (nodes (A n))) i = 1 := fun k l m n => by
    simp [Condition, elementary, leaf, nodes]
  constructor
  · exact fun h => ⟨fun k l m n => (hbush k l m n).mp (h _ (by simp [leaf])),
      fun k l m n => (hright k l m n).mp (h _ (by simp [leaf])),
      fun k l m n => (hfork k l m n).mp (h _ (by simp [leaf])),
      fun k l m n => (htall k l m n).mp (h _ (by simp [leaf]))⟩
  · rintro ⟨h1, h2, h3, h4⟩ t ht
    rcases eq_of_size_four ht with ⟨k, l, m, n, rfl⟩ | ⟨k, l, m, n, rfl⟩ | ⟨k, l, m, n, rfl⟩ |
      ⟨k, l, m, n, rfl⟩ | ⟨k, l, m, n, rfl⟩
    · exact (hbush k l m n).mpr (h1 k l m n)
    · exact (hright k l m n).mpr (h2 k l m n)
    · exact (hleft k l m n).mpr (h2 k l m n)
    · exact (hfork k l m n).mpr (h3 k l m n)
    · exact (htall k l m n).mpr (h4 k l m n)

end Conditions

/-! ## Steps -/

section Steps

variable {ι K V : Type*} [Fintype ι] [Field K] [AddCommGroup V] [Module K V]

/-- `u'` is the result of one step of the method from `u`: `k i` is the rate of stage `i`, and `f i`
computes it from the state of that stage. -/
def IsStep (A : ι → ι → K) (b : ι → K) (f : ι → V → V) (dt : K) (u u' : V) : Prop :=
  ∃ k : ι → V, (∀ i, k i = f i (u + dt • ∑ j, A i j • k j)) ∧ u' = u + dt • ∑ i, b i • k i

/-- A method with zero matrix entries on and above the diagonal. -/
def Explicit {s : ℕ} (A : Fin s → Fin s → K) : Prop := ∀ i j, i ≤ j → A i j = 0

/-- The stability coefficients: one, and the elementary weights of the paths. -/
def stability (A : ι → ι → K) (b : ι → K) : ℕ → K
  | 0 => 1
  | m + 1 => ∑ i, b i * (matvec A)^[m] 1 i

variable {s : ℕ} {A : Fin s → Fin s → K} {b : Fin s → K}

/-- Every application of the matrix of an explicit method moves the support down by one stage. -/
lemma Explicit.iterate_eq_zero (hA : Explicit A) (x : Fin s → K) (m : ℕ) :
    ∀ i : Fin s, i.val < m → (matvec A)^[m] x i = 0 := by
  induction m with
  | zero => exact fun i hi => absurd hi (by omega)
  | succ m ih =>
    intro i hi
    rw [Function.iterate_succ_apply']
    refine Finset.sum_eq_zero fun j _ => ?_
    rcases le_or_gt i j with hij | hji
    · rw [hA i j hij, zero_mul]
    · rw [ih j (by omega), mul_zero]

/-- The stability coefficients of an explicit method end after as many as there are stages. -/
lemma Explicit.stability_eq_zero (hA : Explicit A) {m : ℕ} (hm : s < m) :
    stability A b m = 0 := by
  obtain ⟨m, rfl⟩ := Nat.exists_eq_add_one_of_ne_zero (by omega : m ≠ 0)
  exact Finset.sum_eq_zero fun i _ => by rw [hA.iterate_eq_zero 1 m i (by omega), mul_zero]

/-- The rates of the stages on a linear equation, as a polynomial applied to the first one. -/
def linearRate (A : Fin s → Fin s → K) (L : Module.End K V) (dt : K) (u : V) (i : Fin s) : V :=
  ∑ m ∈ Finset.range s, (matvec A)^[m] 1 i • ((dt • L) ^ m) (L u)

/-- These rates satisfy the equations of the stages.

**Proof sketch.** Applying the matrix shifts the powers by one; the power that is then missing is
the zeroth, which the state in front of the sum provides, and the one too many has the coefficient
zero. -/
theorem Explicit.linearRate_eq (hA : Explicit A) (L : Module.End K V) (dt : K) (u : V) (i : Fin s) :
    linearRate A L dt u i = L (u + dt • ∑ j, A i j • linearRate A L dt u j) := by
  have hshift : dt • L (∑ j, A i j • linearRate A L dt u j) =
      ∑ m ∈ Finset.range s, (matvec A)^[m + 1] 1 i • ((dt • L) ^ (m + 1)) (L u) := by
    calc dt • L (∑ j, A i j • linearRate A L dt u j)
        = (dt • L) (∑ j, A i j • linearRate A L dt u j) := rfl
      _ = ∑ j, ∑ m ∈ Finset.range s,
            (A i j * (matvec A)^[m] 1 j) • ((dt • L) ^ (m + 1)) (L u) := by
          simp only [linearRate, map_sum, map_smul, Finset.smul_sum, smul_smul, pow_succ',
            Module.End.mul_apply]
      _ = _ := by
          rw [Finset.sum_comm]
          refine Finset.sum_congr rfl fun m _ => ?_
          rw [← Finset.sum_smul, Function.iterate_succ_apply']
          rfl
  have hlast : (matvec A)^[s] (1 : Fin s → K) i = 0 := hA.iterate_eq_zero 1 s i i.isLt
  rw [map_add, map_smul, hshift, linearRate]
  have hsum := Finset.sum_range_succ'
    (fun m => (matvec A)^[m] (1 : Fin s → K) i • ((dt • L) ^ m) (L u)) s
  rw [Finset.sum_range_succ, hlast, zero_smul, add_zero] at hsum
  rw [hsum, add_comm]
  simp

/-- Rates that satisfy the equations of the stages are these. -/
lemma Explicit.rate_unique (hA : Explicit A) {L : Module.End K V} {dt : K} {u : V} {k : Fin s → V}
    (hk : ∀ i, k i = L (u + dt • ∑ j, A i j • k j)) : k = linearRate A L dt u := by
  have hall : ∀ n, ∀ i : Fin s, i.val < n → k i = linearRate A L dt u i := by
    intro n
    induction n with
    | zero => exact fun i hi => absurd hi (by omega)
    | succ n ih =>
      intro i hi
      rw [hk i, hA.linearRate_eq]
      congr 3
      refine Finset.sum_congr rfl fun j _ => ?_
      rcases le_or_gt i j with hij | hji
      · rw [hA i j hij, zero_smul, zero_smul]
      · rw [ih j (by omega)]
  funext i
  exact hall s i i.isLt

/-- On a linear equation, a step of an explicit method applies the polynomial with the stability
coefficients to the state. -/
theorem isStep_linear_iff (hA : Explicit A) (L : Module.End K V) (dt : K) (u u' : V) :
    IsStep A b (fun _ => L) dt u u' ↔
      u' = ∑ m ∈ Finset.range (s + 1), stability A b m • ((dt • L) ^ m) u := by
  have hsum : u + dt • ∑ i, b i • linearRate A L dt u i =
      ∑ m ∈ Finset.range (s + 1), stability A b m • ((dt • L) ^ m) u := by
    have hterm : dt • ∑ i, b i • linearRate A L dt u i =
        ∑ m ∈ Finset.range s, stability A b (m + 1) • ((dt • L) ^ (m + 1)) u := by
      have hpow : ∀ m, dt • ((dt • L) ^ m) (L u) = ((dt • L) ^ (m + 1)) u := by
        intro m
        rw [← map_smul, pow_succ, Module.End.mul_apply]
        rfl
      calc dt • ∑ i, b i • linearRate A L dt u i
          = ∑ i, ∑ m ∈ Finset.range s,
              (b i * (matvec A)^[m] 1 i) • ((dt • L) ^ (m + 1)) u := by
            simp only [linearRate, Finset.smul_sum, smul_smul, ← hpow]
            refine Finset.sum_congr rfl fun i _ => Finset.sum_congr rfl fun m _ => ?_
            congr 1
            ring
        _ = _ := by
            rw [Finset.sum_comm]
            refine Finset.sum_congr rfl fun m _ => ?_
            rw [← Finset.sum_smul]
            rfl
    rw [Finset.sum_range_succ', hterm, add_comm]
    simp [stability]
  constructor
  · rintro ⟨k, hk, rfl⟩
    rw [hA.rate_unique hk, hsum]
  · rintro rfl
    exact ⟨linearRate A L dt u, hA.linearRate_eq L dt u, hsum.symm⟩

/-- The stability coefficients in a larger field. -/
lemma map_stability {F : Type*} [Field F] (φ : F →+* K) (A : ι → ι → F) (b : ι → F) (m : ℕ) :
    stability (fun i j => φ (A i j)) (fun i => φ (b i)) m = φ (stability A b m) := by
  have hiterate : ∀ n i, (matvec fun i j => φ (A i j))^[n] 1 i = φ ((matvec A)^[n] 1 i) := by
    intro n
    induction n with
    | zero => simp
    | succ n ih =>
      intro i
      rw [Function.iterate_succ_apply', Function.iterate_succ_apply']
      simp only [matvec, map_sum, map_mul, ih]
  cases m with
  | zero => simp [stability]
  | succ m => simp only [stability, hiterate, map_sum, map_mul]

/-- Up to the order of a method, its stability coefficients are those of the exponential series. -/
theorem HasOrder.stability_eq {A : ι → ι → K} {b : ι → K} {p : ℕ}
    (h : HasOrder (fun _ : Unit => A) (fun _ => b) p) {m : ℕ} (hm : m ≤ p) :
    (m.factorial : K) * stability A b m = 1 := by
  cases m with
  | zero => simp [stability]
  | succ m =>
    have hpath := h (Tree.path () m) (by simpa using hm)
    rw [Tree.Condition, Tree.density_path] at hpath
    rw [← hpath, stability, Tree.elementary, Tree.weight_path]

end Steps

end RungeKutta
