import Mathlib.Data.List.Basic

/-!
# Forests in preorder

An ordered forest is written down in preorder by the number of children of each node.
Reading that list backwards from a node, with a count of the trees still to be claimed,
finds the node's parent: every tree passed lowers the count by one, and the parent is the
first node whose children outnumber the trees passed.
-/

namespace RaipalSoem.Lib

/-- Each element of a list, numbered from `k`, has a property. -/
def Numbered {α : Type*} (Q : Nat → α → Prop) : Nat → List α → Prop
  | _, [] => True
  | k, x :: xs => Q k x ∧ Numbered Q (k + 1) xs

namespace Numbered

variable {α : Type*} {Q R : Nat → α → Prop}

@[simp] theorem nil (k : Nat) : Numbered Q k [] := trivial

@[simp] theorem cons {k : Nat} {x : α} {xs : List α} :
    Numbered Q k (x :: xs) ↔ Q k x ∧ Numbered Q (k + 1) xs := Iff.rfl

@[simp] theorem append {k : Nat} {xs ys : List α} :
    Numbered Q k (xs ++ ys) ↔ Numbered Q k xs ∧ Numbered Q (k + xs.length) ys := by
  induction xs generalizing k with
  | nil => simp
  | cons x xs ih =>
      have hnum : k + 1 + xs.length = k + (xs.length + 1) := by omega
      simp [ih, and_assoc, hnum]

theorem of_getElem? {k : Nat} {xs : List α} (h : ∀ i x, xs[i]? = some x → Q (k + i) x) :
    Numbered Q k xs := by
  induction xs generalizing k with
  | nil => trivial
  | cons x xs ih =>
      refine ⟨h 0 x rfl, ih fun i y hy => ?_⟩
      have hnum : k + 1 + i = k + (i + 1) := by omega
      exact hnum ▸ h (i + 1) y hy

theorem get {k : Nat} {xs : List α} (h : Numbered Q k xs) {i : Nat} {x : α}
    (hx : xs[i]? = some x) : Q (k + i) x := by
  induction xs generalizing k i with
  | nil => cases hx
  | cons y ys ih =>
      cases i with
      | zero =>
          cases hx
          exact h.1
      | succ i =>
          have hnum : k + 1 + i = k + (i + 1) := by omega
          exact hnum ▸ ih h.2 hx

/-- A property of the numbers in reach of the list can be replaced. -/
theorem imp {k : Nat} {xs : List α}
    (hQR : ∀ j x, k ≤ j → j < k + xs.length → Q j x → R j x) (h : Numbered Q k xs) :
    Numbered R k xs := by
  apply of_getElem?
  intro i x hx
  have hi := (List.getElem?_eq_some_iff.mp hx).1
  exact hQR (k + i) x (Nat.le_add_right _ _) (by omega) (h.get hx)

end Numbered

/-- An ordered forest: the first tree's root with its children, then the other trees. -/
inductive Forest (α : Type*)
  | empty
  | node (a : α) (children siblings : Forest α)

namespace Forest

variable {α : Type*}

/-- The number of nodes. -/
def size : Forest α → Nat
  | empty => 0
  | node _ children siblings => 1 + children.size + siblings.size

/-- The number of trees. -/
def width : Forest α → Nat
  | empty => 0
  | node _ _ siblings => 1 + siblings.width

/-- The number of children of each node, in preorder. -/
def arities : Forest α → List Nat
  | empty => []
  | node _ children siblings => children.width :: (children.arities ++ siblings.arities)

/-- The labels of the roots. -/
def roots : Forest α → List α
  | empty => []
  | node a _ siblings => a :: siblings.roots

/-- The nodes in preorder, each with its label and the labels of its children. -/
def nodes : Forest α → List (α × List α)
  | empty => []
  | node a children siblings => (a, children.roots) :: (children.nodes ++ siblings.nodes)

/-- The number of each node's parent, in preorder, for trees that hang below node
`parent` and are numbered from `first`. -/
def parents (parent first : Nat) : Forest α → List Nat
  | empty => []
  | node _ children siblings =>
      parent :: (children.parents first (first + 1) ++
        siblings.parents parent (first + 1 + children.size))

@[simp] theorem length_arities (f : Forest α) : f.arities.length = f.size := by
  induction f with
  | empty => rfl
  | node a children siblings ihc ihs => simp [arities, size, ihc, ihs]; omega

@[simp] theorem length_roots (f : Forest α) : f.roots.length = f.width := by
  induction f with
  | empty => rfl
  | node a children siblings _ ihs => simp [roots, width, ihs]; omega

@[simp] theorem length_nodes (f : Forest α) : f.nodes.length = f.size := by
  induction f with
  | empty => rfl
  | node a children siblings ihc ihs => simp [nodes, size, ihc, ihs]; omega

theorem arities_eq_map_nodes (f : Forest α) :
    f.arities = f.nodes.map fun n => n.2.length := by
  induction f with
  | empty => rfl
  | node a children siblings ihc ihs => simp [arities, nodes, ihc, ihs]

@[simp] theorem length_parents (f : Forest α) (parent first : Nat) :
    (f.parents parent first).length = f.size := by
  induction f generalizing parent first with
  | empty => rfl
  | node a children siblings ihc ihs => simp [parents, size, ihc, ihs]; omega

/-- Read numbers of children backwards, with the count `c` of what they leave open: the
number of the first node that leaves room, or of the first node of all. -/
def scan : List Nat → Int → Nat
  | [], _ => 0
  | a :: rest, c =>
      if (0 ≤ c + a - 1 ∧ 0 < a) ∨ rest = [] then rest.length + 1
      else scan rest (c + a - 1)

/-- A node is the parent of a tree behind it as long as it has more children than there
are trees between them. -/
theorem scan_parent {a j : Nat} (h : j < a) (before : List Nat) :
    scan (a :: before) (-j) = before.length + 1 := by
  simp only [scan]
  apply if_pos
  left
  constructor <;> omega

/-- A node all of whose children have been passed is passed, and counts as one tree. -/
theorem scan_passed {a : Nat} {c : Int} (h : c ≤ 0) {before : List Nat}
    (hb : before ≠ []) : scan (a :: before) (c - a) = scan before (c - 1) := by
  have hc : c - a + a - 1 = c - 1 := by omega
  rw [scan, hc]
  apply if_neg
  rintro (⟨h0, -⟩ | h0)
  · omega
  · exact hb h0

/-- The trees of a forest are passed one by one, whatever is in them. -/
theorem scan_forest (f : Forest α) {before : List Nat} (hb : before ≠ []) {c : Int}
    (hc : c ≤ 0) :
    scan (f.arities.reverse ++ before) c = scan before (c - f.width) := by
  induction f generalizing before c with
  | empty => simp [arities, width]
  | node a children siblings ihc ihs =>
      have hchildren : c - siblings.width ≤ 0 := by omega
      calc
        scan ((node a children siblings).arities.reverse ++ before) c
        _ = scan (siblings.arities.reverse ++
              (children.arities.reverse ++ (children.width :: before))) c := by
          simp [arities]
        _ = scan (children.arities.reverse ++ (children.width :: before))
              (c - siblings.width) := ihs (by simp) hc
        _ = scan (children.width :: before) (c - siblings.width - children.width) :=
          ihc (by simp) hchildren
        _ = scan before (c - siblings.width - 1) := scan_passed hchildren hb
        _ = scan before (c - (node a children siblings).width) := by
          congr 1
          simp only [width]
          omega

/-- In a forest below a node that is found for each of its trees, the scan finds the
parent of every node. -/
theorem scan_take (f : Forest α) {before : List Nat} (hb : before ≠ []) {parent : Nat}
    (hparent : ∀ j < f.width, scan before (-(j : Int)) = parent) {i : Nat}
    (hi : i < f.size) :
    (f.parents parent (before.length + 1))[i]? =
      some (scan ((f.arities.take i).reverse ++ before) 0) := by
  induction f generalizing before parent i with
  | empty => simp [size] at hi
  | node a children siblings ihc ihs =>
      have hfirst : scan before 0 = parent := by
        simpa using hparent 0 (by simp only [width]; omega)
      -- the node itself is the parent its children find
      have hchildren : ∀ j < children.width,
          scan (children.width :: before) (-(j : Int)) = before.length + 1 :=
        fun j hj => scan_parent hj before
      -- the trees behind it count this one as passed
      have hsiblings : ∀ j < siblings.width,
          scan (children.arities.reverse ++ children.width :: before) (-(j : Int)) =
            parent := by
        intro j hj
        calc
          scan (children.arities.reverse ++ children.width :: before) (-(j : Int))
          _ = scan (children.width :: before) (-(j : Int) - children.width) :=
            scan_forest children (by simp) (by omega)
          _ = scan before (-(j : Int) - 1) := scan_passed (by omega) hb
          _ = scan before (-((j + 1 : Nat) : Int)) := by
            congr 1
            omega
          _ = parent := hparent (j + 1) (by simp only [width]; omega)
      cases i with
      | zero => simp [parents, hfirst]
      | succ i =>
          simp only [size] at hi
          by_cases hc : i < children.size
          · have ih := ihc (List.cons_ne_nil _ _) hchildren hc
            simp only [List.length_cons] at ih
            have htake : (children.arities ++ siblings.arities).take i =
                children.arities.take i :=
              List.take_append_of_le_length (by simpa using Nat.le_of_lt hc)
            simp only [parents, arities, List.getElem?_cons_succ, List.take_succ_cons, htake,
              List.reverse_cons, List.append_assoc, List.singleton_append]
            exact (List.getElem?_append_left (by simpa using hc)).trans ih
          · obtain ⟨j, rfl⟩ := Nat.exists_eq_add_of_le (Nat.le_of_not_lt hc)
            have ih := ihs (List.append_ne_nil_of_right_ne_nil _ (List.cons_ne_nil _ _))
              hsiblings (Nat.lt_of_add_lt_add_left (n := children.size) (k := j) (by omega))
            have hlen : (children.arities.reverse ++ children.width :: before).length + 1 =
                before.length + 1 + 1 + children.size := by
              simp
              omega
            have htake : (children.arities ++ siblings.arities).take (children.size + j) =
                children.arities ++ siblings.arities.take j := by
              simp [List.take_append, List.take_of_length_le]
            rw [hlen] at ih
            simp only [parents, arities, List.getElem?_cons_succ, List.take_succ_cons, htake,
              List.reverse_cons, List.reverse_append, List.append_assoc, List.singleton_append]
            rw [List.getElem?_append_right (by simp)]
            simpa using ih

/-- In a tree the scan finds the parent of every node; the root has none. -/
theorem scan_tree (a : α) (children : Forest α) {i : Nat}
    (hi : i < (node a children empty).size) :
    ((node a children empty).parents 0 1)[i]? =
      some (scan (((node a children empty).arities.take i).reverse) 0) := by
  cases i with
  | zero => simp [parents, scan]
  | succ i =>
      have hc : i < children.size := by
        simp only [size] at hi
        omega
      have h := scan_take children (List.cons_ne_nil children.width [])
        (fun j hj => scan_parent hj []) hc
      simp only [List.length_cons, List.length_nil] at h
      simp [parents, arities, h]

end Forest

end RaipalSoem.Lib
