import Mathlib.Algebra.GroupWithZero.Nat
import Mathlib.Data.List.Nodup
import Mathlib.Data.List.Perm.Subperm
import Mathlib.Tactic.Common

/-! # Ordered trees whose children hang under field names

A `Forest` is the sequence of the children of a node, each with the name of the field that holds it;
a `FTree` is a label over a forest. A node is addressed by the path of child indices that leads to
it. The file relates three views of a tree: navigation by path (`FTree.get?`), the preorder list of
all nodes with their paths (`FTree.nodes`) and the breadth-first walk over a queue (`walk`); and it
gives the laws of an edit at a path (`FTree.update`). -/

namespace FieldTree

/-- The children of a node, in order. -/
inductive Forest (φ α : Type*) where
  | nil
  | cons (field : φ) (label : α) (children rest : Forest φ α)
  deriving DecidableEq

structure FTree (φ α : Type*) where
  label : α
  children : Forest φ α
  deriving DecidableEq

/-- The child indices on the way from the root to a node. -/
abbrev Path := List Nat

variable {φ α β : Type*}

/-! ## Entries -/

namespace Forest

/-- The children as a list of field names and trees. -/
def entries : Forest φ α → List (φ × FTree φ α)
  | nil => []
  | cons f a ks rest => (f, ⟨a, ks⟩) :: rest.entries

def trees (ks : Forest φ α) : List (FTree φ α) := ks.entries.map (·.2)

def fields (ks : Forest φ α) : List φ := ks.entries.map (·.1)

/-- Replace the `i`-th child, keeping its field name. -/
def modify : Forest φ α → Nat → (FTree φ α → FTree φ α) → Forest φ α
  | nil, _, _ => nil
  | cons f a ks rest, 0, g => cons f (g ⟨a, ks⟩).label (g ⟨a, ks⟩).children rest
  | cons f a ks rest, i + 1, g => cons f a ks (rest.modify i g)

/-- Relabel every node. -/
def map (h : α → β) : Forest φ α → Forest φ β
  | nil => nil
  | cons f a ks rest => cons f (h a) (ks.map h) (rest.map h)

def size : Forest φ α → Nat
  | nil => 0
  | cons _ _ ks rest => 1 + ks.size + rest.size

@[simp] theorem entries_nil : (nil : Forest φ α).entries = [] := rfl

@[simp] theorem entries_cons (f : φ) (a : α) (ks rest : Forest φ α) :
    (cons f a ks rest).entries = (f, ⟨a, ks⟩) :: rest.entries := rfl

@[simp] theorem trees_nil : (nil : Forest φ α).trees = [] := rfl

@[simp] theorem trees_cons (f : φ) (a : α) (ks rest : Forest φ α) :
    (cons f a ks rest).trees = ⟨a, ks⟩ :: rest.trees := rfl

theorem entries_modify (ks : Forest φ α) (i : Nat) (g : FTree φ α → FTree φ α) :
    (ks.modify i g).entries = ks.entries.modify i fun e => (e.1, g e.2) := by
  induction ks generalizing i with
  | nil => cases i <;> rfl
  | cons f a ks rest _ ih => cases i with
    | zero => rfl
    | succ i => simp [modify, ih]

theorem fields_modify (ks : Forest φ α) (i : Nat) (g : FTree φ α → FTree φ α) :
    (ks.modify i g).fields = ks.fields := by
  induction ks generalizing i with
  | nil => cases i <;> rfl
  | cons f a ks rest _ ih => cases i with
    | zero => rfl
    | succ i => exact congrArg (f :: ·) (ih i)

/-- A view of the entries that an edit does not change. -/
theorem map_entries_modify {γ : Type*} (h : φ → FTree φ α → γ) {ks : Forest φ α} {i : Nat}
    {g : FTree φ α → FTree φ α} (hg : ∀ f s, ks.trees[i]? = some s → h f (g s) = h f s) :
    ((ks.modify i g).entries.map fun e => h e.1 e.2) = ks.entries.map fun e => h e.1 e.2 := by
  induction ks generalizing i with
  | nil => cases i <;> rfl
  | cons f a ks rest _ ih => cases i with
    | zero =>
      have h0 : h f ⟨(g ⟨a, ks⟩).label, (g ⟨a, ks⟩).children⟩ = h f ⟨a, ks⟩ := hg f ⟨a, ks⟩ rfl
      simp [modify, h0]
    | succ i => simp [modify, ih fun f s hs => hg f s (by simpa using hs)]

/-- An edit shows in one field only. -/
theorem filter_entries_modify [DecidableEq φ] {f : φ} {ks : Forest φ α} {i : Nat}
    {g : FTree φ α → FTree φ α} (h : ks.fields[i]? ≠ some f) :
    (ks.modify i g).entries.filter (·.1 = f) = ks.entries.filter (·.1 = f) := by
  induction ks generalizing i with
  | nil => cases i <;> rfl
  | cons f' a ks rest _ ih => cases i with
    | zero =>
      have hf : f' ≠ f := fun hf => h (by rw [← hf]; rfl)
      simp [modify, hf]
    | succ i => simp [modify, List.filter_cons, ih h]

theorem mem_trees_modify {ks : Forest φ α} {i : Nat} {g : FTree φ α → FTree φ α} {s : FTree φ α}
    (h : s ∈ (ks.modify i g).trees) : s ∈ ks.trees ∨ ∃ s', ks.trees[i]? = some s' ∧ s = g s' := by
  induction ks generalizing i with
  | nil => cases i <;> cases h
  | cons f a ks rest _ ih => cases i with
    | zero =>
      rcases List.mem_cons.mp h with rfl | h
      · exact .inr ⟨_, rfl, rfl⟩
      · exact .inl (List.mem_cons_of_mem _ h)
    | succ i =>
      rcases List.mem_cons.mp h with rfl | h
      · exact .inl List.mem_cons_self
      · rcases ih h with h | ⟨s', hs', rfl⟩
        · exact .inl (List.mem_cons_of_mem _ h)
        · exact .inr ⟨s', by simpa using hs', rfl⟩

end Forest

namespace FTree

def size (t : FTree φ α) : Nat := 1 + t.children.size

def map (h : α → β) (t : FTree φ α) : FTree φ β := ⟨h t.label, t.children.map h⟩

/-- The node at a path. -/
def get? (t : FTree φ α) : Path → Option (FTree φ α)
  | [] => some t
  | i :: p => t.children.trees[i]?.bind (·.get? p)

/-- Replace the node at a path. -/
def update (t : FTree φ α) : Path → (FTree φ α → FTree φ α) → FTree φ α
  | [], g => g t
  | i :: p, g => ⟨t.label, t.children.modify i (·.update p g)⟩

/-- The label at a path. -/
def label? (t : FTree φ α) (p : Path) : Option α := (t.get? p).map label

/-- The label at a path and the fields that hold the children there. -/
def shape? (t : FTree φ α) (p : Path) : Option (α × List φ) :=
  (t.get? p).map fun s => (s.label, s.children.fields)

/-- The shape of the parent of a node, and the field that holds the node. -/
def slot? (t : FTree φ α) (p : Path) : Option ((α × List φ) × φ) :=
  p.getLast?.bind fun i => (t.shape? p.dropLast).bind fun s => s.2[i]?.map fun f => (s, f)

@[simp] theorem get?_nil (t : FTree φ α) : t.get? [] = some t := rfl

@[simp] theorem update_nil (t : FTree φ α) (g : FTree φ α → FTree φ α) : t.update [] g = g t := rfl

@[simp] theorem label_update_cons (t : FTree φ α) (i : Nat) (p : Path) (g : FTree φ α → FTree φ α) :
    (t.update (i :: p) g).label = t.label := rfl

theorem get?_cons (t : FTree φ α) (i : Nat) (p : Path) :
    t.get? (i :: p) = t.children.trees[i]?.bind (·.get? p) := rfl

theorem get?_append (t : FTree φ α) (p q : Path) :
    t.get? (p ++ q) = (t.get? p).bind (·.get? q) := by
  induction p generalizing t with
  | nil => rfl
  | cons i p ih =>
    rw [List.cons_append, get?_cons, get?_cons, Option.bind_assoc]
    exact congrArg _ (funext fun s => ih s)

theorem trees_update_cons (t : FTree φ α) (i : Nat) (p : Path) (g : FTree φ α → FTree φ α) :
    (t.update (i :: p) g).children.trees = t.children.trees.modify i (·.update p g) := by
  simp only [update, Forest.trees, Forest.entries_modify]
  generalize t.children.entries = es
  induction es generalizing i with
  | nil => simp
  | cons e es ih => cases i <;> simp [ih]

/-! ## Edits -/

/-- At and below an edited node one sees the new node. -/
theorem get?_update_append (t : FTree φ α) (p r : Path) (g : FTree φ α → FTree φ α) :
    (t.update p g).get? (p ++ r) = (t.get? p).bind fun s => (g s).get? r := by
  induction p generalizing t with
  | nil => rfl
  | cons i p ih =>
    rw [List.cons_append, get?_cons, trees_update_cons, List.getElem?_modify_eq, get?_cons]
    cases t.children.trees[i]? with
    | none => rfl
    | some s => exact ih s

/-- Above an edited node one sees the old node, edited. -/
theorem get?_update_above (t : FTree φ α) (p r : Path) (g : FTree φ α → FTree φ α) :
    (t.update (p ++ r) g).get? p = (t.get? p).map (·.update r g) := by
  induction p generalizing t with
  | nil => rfl
  | cons i p ih =>
    rw [List.cons_append, get?_cons, trees_update_cons, List.getElem?_modify_eq, get?_cons]
    cases t.children.trees[i]? with
    | none => rfl
    | some s => exact ih s

/-- Beside an edited node one sees the old node. -/
theorem get?_update_aside {t : FTree φ α} {p q : Path} {g : FTree φ α → FTree φ α}
    (hpq : ¬p <+: q) (hqp : ¬q <+: p) : (t.update p g).get? q = t.get? q := by
  induction p generalizing t q with
  | nil => exact absurd List.nil_prefix hpq
  | cons i p ih => cases q with
    | nil => exact absurd List.nil_prefix hqp
    | cons j q =>
      rw [get?_cons, get?_cons, trees_update_cons]
      by_cases hij : i = j
      · subst hij
        rw [List.prefix_cons_inj] at hpq hqp
        rw [List.getElem?_modify_eq]
        cases t.children.trees[i]? with
        | none => rfl
        | some s => exact ih hpq hqp
      · rw [List.getElem?_modify_ne _ _ hij]

theorem get?_update_self (t : FTree φ α) (p : Path) (g : FTree φ α → FTree φ α) :
    (t.update p g).get? p = (t.get? p).map g := by
  have h := get?_update_append t p [] g
  rw [List.append_nil] at h
  rw [h]
  cases t.get? p <;> rfl

/-- Away from an edited node one sees the old tree. -/
theorem shape?_update_outside {t : FTree φ α} {p q : Path} {g : FTree φ α → FTree φ α}
    (h : ¬p <+: q) : (t.update p g).shape? q = t.shape? q := by
  induction p generalizing t q with
  | nil => exact absurd List.nil_prefix h
  | cons i p ih => cases q with
    | nil => exact congrArg (fun fs => some (t.label, fs)) (Forest.fields_modify ..)
    | cons j q =>
      rw [shape?, shape?, get?_cons, get?_cons, trees_update_cons]
      by_cases hij : i = j
      · subst hij
        rw [List.getElem?_modify_eq]
        cases t.children.trees[i]? with
        | none => rfl
        | some s => exact ih fun hp => h (List.cons_prefix_cons.mpr ⟨rfl, hp⟩)
      · rw [List.getElem?_modify_ne _ _ hij]

theorem label?_eq_shape? (t : FTree φ α) (p : Path) : t.label? p = (t.shape? p).map (·.1) := by
  rw [label?, shape?, Option.map_map]; rfl

theorem label?_update_outside {t : FTree φ α} {p q : Path} {g : FTree φ α → FTree φ α}
    (h : ¬p <+: q) : (t.update p g).label? q = t.label? q := by
  rw [label?_eq_shape?, shape?_update_outside h, label?_eq_shape?]

/-- An edit moves no node out of its field. -/
theorem slot?_update {t : FTree φ α} {p q : Path} {g : FTree φ α → FTree φ α}
    (h : p <+: q → p = q) : (t.update p g).slot? q = t.slot? q := by
  cases hq : q.getLast? with
  | none => simp [slot?, hq]
  | some i =>
    obtain ⟨q, rfl⟩ := List.getLast?_eq_some_iff.mp hq
    have hout : ¬p <+: q := fun hp => by
      have := h (hp.trans (List.prefix_append q [i]))
      subst this
      exact absurd hp.length_le (by simp)
    simp [slot?, shape?_update_outside hout]

theorem label?_update_self (t : FTree φ α) (p : Path) (g : FTree φ α → FTree φ α) :
    (t.update p g).label? p = (t.get? p).map fun s => (g s).label := by
  rw [label?, get?_update_self, Option.map_map]; rfl

/-- An edit that keeps the children changes no label but the one at its path. -/
theorem label?_update_relabel {t : FTree φ α} {p q : Path} {g : FTree φ α → FTree φ α}
    (hg : ∀ s, (g s).children = s.children) (h : q ≠ p) :
    (t.update p g).label? q = t.label? q := by
  by_cases hpq : p <+: q
  · obtain ⟨r, rfl⟩ := hpq
    rw [label?, label?, get?_update_append, get?_append]
    cases r with
    | nil => exact absurd (List.append_nil p) h
    | cons i r => cases t.get? p with
      | none => rfl
      | some s => simp [get?_cons, hg]
  · exact label?_update_outside hpq

/-- Below a node replaced by a leaf there is nothing. -/
theorem label?_update_leaf {t : FTree φ α} {p q : Path} {g : FTree φ α → FTree φ α}
    (hg : ∀ s, (g s).children = .nil) (hpq : p <+: q) (h : q ≠ p) :
    (t.update p g).label? q = none := by
  obtain ⟨r, rfl⟩ := hpq
  rw [label?, get?_update_append]
  cases r with
  | nil => exact absurd (List.append_nil p) h
  | cons i r => cases t.get? p with
    | none => rfl
    | some s => simp [get?_cons, hg]

theorem label?_eq_some {t : FTree φ α} {p : Path} {a : α} :
    t.label? p = some a ↔ ∃ s, t.get? p = some s ∧ s.label = a := by
  simp [label?]

end FTree

/-- Replace the node of a forest at a path. -/
def Forest.update (ks : Forest φ α) (p : Path) (g : FTree φ α → FTree φ α) : Forest φ α :=
  match p with
  | [] => ks
  | i :: p => ks.modify i (·.update p g)

theorem FTree.update_eq_mk {t : FTree φ α} {p : Path} (h : p ≠ []) (g : FTree φ α → FTree φ α) :
    t.update p g = ⟨t.label, t.children.update p g⟩ := by
  cases p with
  | nil => exact absurd rfl h
  | cons i p => rfl

theorem Forest.update_zero {f : φ} {a : α} {ks rest : Forest φ α} {p : Path} (h : p ≠ [])
    (g : FTree φ α → FTree φ α) :
    (cons f a ks rest).update (0 :: p) g = cons f a (ks.update p g) rest := by
  simp [update, modify, FTree.update_eq_mk h]

theorem Forest.update_succ {f : φ} {a : α} {ks rest : Forest φ α} {p : Path} (h : p ≠ [])
    (g : FTree φ α → FTree φ α) :
    (cons f a ks rest).update (p.modifyHead (· + 1)) g = cons f a ks (rest.update p g) := by
  cases p with
  | nil => exact absurd rfl h
  | cons i p => rfl

/-! ## Preorder -/

/-- The nodes of a forest in preorder, each with its path. -/
def Forest.nodes : Forest φ α → List (Path × FTree φ α)
  | nil => []
  | cons _ a ks rest =>
    ([0], ⟨a, ks⟩) :: ks.nodes.map (fun e => (0 :: e.1, e.2)) ++
      rest.nodes.map fun e => (e.1.modifyHead (· + 1), e.2)

/-- The nodes of a tree in preorder, each with its path. -/
def FTree.nodes (t : FTree φ α) : List (Path × FTree φ α) := ([], t) :: t.children.nodes

theorem Forest.mem_nodes {ks : Forest φ α} {p : Path} {s : FTree φ α} :
    (p, s) ∈ ks.nodes ↔ ∃ i q, p = i :: q ∧ ∃ c, ks.trees[i]? = some c ∧ c.get? q = some s := by
  induction ks generalizing p with
  | nil => simp [nodes]
  | cons f a ks rest ihk ihr =>
    simp only [nodes, List.cons_append, List.mem_cons, List.mem_append, List.mem_map,
      Prod.mk.injEq, Prod.exists, trees_cons]
    constructor
    · rintro (⟨rfl, rfl⟩ | ⟨q, s, h, rfl, rfl⟩ | ⟨q, s, h, rfl, rfl⟩)
      · exact ⟨0, [], rfl, _, rfl, rfl⟩
      · obtain ⟨i, q, rfl, c, hc, hs⟩ := ihk.mp h
        exact ⟨0, i :: q, rfl, _, rfl, by simpa [FTree.get?_cons, hc] using hs⟩
      · obtain ⟨i, q, rfl, c, hc, hs⟩ := ihr.mp h
        exact ⟨i + 1, q, rfl, c, hc, hs⟩
    · rintro ⟨i, q, rfl, c, hc, hs⟩
      cases i with
      | zero =>
        obtain rfl : ⟨a, ks⟩ = c := by simpa using hc
        cases q with
        | nil => exact .inl ⟨rfl, (by simpa using hs.symm)⟩
        | cons j q =>
          obtain ⟨d, hd, hs⟩ := Option.bind_eq_some_iff.mp hs
          exact .inr (.inl ⟨_, s, ihk.mpr ⟨j, q, rfl, d, hd, hs⟩, rfl, rfl⟩)
      | succ i => exact .inr (.inr ⟨_, s, ihr.mpr ⟨i, q, rfl, c, hc, hs⟩, rfl, rfl⟩)

theorem FTree.mem_nodes {t s : FTree φ α} {p : Path} : (p, s) ∈ t.nodes ↔ t.get? p = some s := by
  rw [nodes, List.mem_cons, Forest.mem_nodes]
  cases p with
  | nil => simp [eq_comm]
  | cons i p => simp [get?_cons, Option.bind_eq_some_iff]

theorem Forest.ne_nil_of_mem_nodes {ks : Forest φ α} {e : Path × FTree φ α} (h : e ∈ ks.nodes) :
    e.1 ≠ [] := by
  obtain ⟨i, q, he, -⟩ := mem_nodes.mp (show (e.1, e.2) ∈ ks.nodes from h)
  rw [he]
  exact List.cons_ne_nil i q

theorem prefix_modifyHead_succ {p q : Path} (hp : p ≠ []) :
    p.modifyHead (· + 1) <+: q.modifyHead (· + 1) ↔ p <+: q := by
  cases p with
  | nil => exact absurd rfl hp
  | cons i p => cases q <;> simp [List.cons_prefix_cons]

/-- In preorder no node is listed after one that lies below it. -/
theorem Forest.nodes_pairwise (ks : Forest φ α) :
    ks.nodes.Pairwise fun e e' => ¬e'.1 <+: e.1 := by
  induction ks with
  | nil => exact .nil
  | cons f a ks rest ihk ihr =>
    simp only [nodes, List.cons_append, List.pairwise_cons, List.pairwise_append,
      List.pairwise_map, List.mem_append, List.mem_map]
    refine ⟨?_, ihk.imp fun h h' => h (List.cons_prefix_cons.mp h').2,
      ihr.imp_of_mem fun _ he h h' =>
        h ((prefix_modifyHead_succ (ne_nil_of_mem_nodes he)).mp h'), ?_⟩
    · rintro _ (⟨e, he, rfl⟩ | ⟨e, he, rfl⟩) hp
      · exact ne_nil_of_mem_nodes he (List.prefix_nil.mp (List.cons_prefix_cons.mp hp).2)
      · obtain ⟨i, q, h⟩ := List.exists_cons_of_ne_nil (ne_nil_of_mem_nodes he)
        simp [h, List.cons_prefix_cons] at hp
    · rintro _ ⟨d, -, rfl⟩ _ ⟨e, he, rfl⟩ hp
      obtain ⟨i, q, h⟩ := List.exists_cons_of_ne_nil (ne_nil_of_mem_nodes he)
      simp [h, List.cons_prefix_cons] at hp

theorem FTree.nodes_pairwise (t : FTree φ α) : t.nodes.Pairwise fun e e' => ¬e'.1 <+: e.1 :=
  List.pairwise_cons.mpr ⟨fun _ he h => Forest.ne_nil_of_mem_nodes he (List.prefix_nil.mp h),
    t.children.nodes_pairwise⟩

theorem FTree.nodup_nodes (t : FTree φ α) : (t.nodes.map (·.1)).Nodup := by
  rw [List.Nodup, List.pairwise_map]
  exact t.nodes_pairwise.imp fun {e e'} h (he : e.1 = e'.1) => h (he ▸ List.prefix_rfl)

/-! ## One field -/

/-- The children in field `f`, under their paths from the forest. -/
def Forest.under [DecidableEq φ] (f : φ) : Forest φ α → List (Path × FTree φ α)
  | nil => []
  | cons g a ks rest =>
    (if g = f then [([0], ⟨a, ks⟩)] else []) ++
      (rest.under f).map fun e => (e.1.modifyHead (· + 1), e.2)

section
variable [DecidableEq φ]

theorem Forest.mem_under {f : φ} {ks : Forest φ α} {p : Path} {s : FTree φ α} :
    (p, s) ∈ ks.under f ↔ ∃ i, p = [i] ∧ ks.entries[i]? = some (f, s) := by
  induction ks generalizing p with
  | nil => simp [under]
  | cons g a ks rest _ ih =>
    simp only [under, List.mem_append, List.mem_map, Prod.mk.injEq, Prod.exists, entries_cons]
    constructor
    · rintro (h | ⟨q, t, h, rfl, rfl⟩)
      · split at h
        · obtain ⟨rfl, rfl⟩ := Prod.mk.inj (List.mem_singleton.mp h)
          exact ⟨0, rfl, by simp_all⟩
        · cases h
      · obtain ⟨i, rfl, he⟩ := ih.mp h
        exact ⟨i + 1, rfl, he⟩
    · rintro ⟨i, rfl, h⟩
      cases i with
      | zero =>
        obtain ⟨rfl, rfl⟩ := by simpa using h
        simp
      | succ i => exact .inr ⟨[i], s, ih.mpr ⟨i, rfl, h⟩, rfl, rfl⟩

theorem Forest.map_snd_under (f : φ) (ks : Forest φ α) :
    (ks.under f).map (·.2) = (ks.entries.filter (·.1 = f)).map (·.2) := by
  induction ks with
  | nil => rfl
  | cons g a ks rest _ ih => by_cases h : g = f <;> simp_all [under, Function.comp_def]

theorem Forest.nodup_under (f : φ) (ks : Forest φ α) : ((ks.under f).map (·.1)).Nodup := by
  induction ks with
  | nil => exact .nil
  | cons g a ks rest _ ih =>
    have hrest : (((rest.under f).map (·.1)).map (List.modifyHead (· + 1))).Nodup := by
      refine ih.map ?_
      rintro (_ | ⟨i, p⟩) (_ | ⟨j, q⟩) h <;> simp_all
    simp only [List.map_map, Function.comp_def] at hrest
    simp only [under, List.map_append, List.map_map, Function.comp_def]
    split
    · refine List.nodup_cons.mpr ⟨fun h => ?_, hrest⟩
      obtain ⟨⟨p, s⟩, h, he⟩ := List.mem_map.mp h
      obtain ⟨i, rfl, -⟩ := mem_under.mp h
      simp at he
    · exact hrest

theorem Forest.under_map (h : α → β) (f : φ) (ks : Forest φ α) :
    (ks.map h).under f = (ks.under f).map fun e => (e.1, e.2.map h) := by
  induction ks with
  | nil => rfl
  | cons g a ks rest _ ih =>
    by_cases hg : g = f <;> simp [map, under, ih, hg, FTree.map, Function.comp_def]

end

/-! ## Breadth first -/

/-- The children under their paths, for a node at `p` whose first child has index `i`. -/
def Forest.located (p : Path) : Nat → Forest φ α → List (Path × FTree φ α)
  | _, nil => []
  | i, cons _ a ks rest => (p ++ [i], ⟨a, ks⟩) :: rest.located p (i + 1)

def queueSize (q : List (Path × FTree φ α)) : Nat := (q.map (·.2.size)).sum

theorem Forest.queueSize_located (ks : Forest φ α) (p : Path) (i : Nat) :
    queueSize (ks.located p i) = ks.size := by
  induction ks generalizing i with
  | nil => rfl
  | cons f a ks rest _ ih =>
    have := ih (i + 1)
    simp only [queueSize, located, List.map_cons, List.sum_cons, size, FTree.size] at this ⊢
    omega

/-- The breadth-first walk: the front of the queue is listed and its children go to the back. -/
def walk : List (Path × FTree φ α) → List (Path × FTree φ α)
  | [] => []
  | (p, t) :: todo => (p, t) :: walk (todo ++ t.children.located p 0)
termination_by q => queueSize q
decreasing_by
  have := t.children.queueSize_located p 0
  simp only [queueSize, List.map_append, List.sum_append, List.map_cons, List.sum_cons,
    FTree.size] at this ⊢
  omega

/-- The nodes below a queued node, under their paths from the root. -/
def below (e : Path × FTree φ α) : List (Path × FTree φ α) :=
  e.2.nodes.map fun x => (e.1 ++ x.1, x.2)

theorem Forest.flatMap_below_located (ks : Forest φ α) (p : Path) (i : Nat) :
    (ks.located p i).flatMap below =
      ks.nodes.map fun x => (p ++ x.1.modifyHead (· + i), x.2) := by
  induction ks generalizing i with
  | nil => rfl
  | cons f a ks rest _ ih =>
    simp only [located, List.flatMap_cons, ih, nodes, below, FTree.nodes, List.cons_append,
      List.map_cons, List.map_append, List.map_map]
    simp [Function.comp_def, Nat.add_comm, Nat.add_left_comm]

/-- The walk lists exactly the nodes below the queue, each once. -/
theorem walk_perm (q : List (Path × FTree φ α)) : (walk q).Perm (q.flatMap below) := by
  fun_induction walk q with
  | case1 => rfl
  | case2 p t todo ih =>
    have hcons : below (p, t) = (p, t) :: (t.children.located p 0).flatMap below := by
      have hid : ∀ r : Path, r.modifyHead (· + 0) = r := fun r => by cases r <;> rfl
      simp only [Forest.flatMap_below_located, hid, below, FTree.nodes, List.map_cons,
        List.append_nil]
    rw [List.flatMap_cons, hcons, List.cons_append]
    refine .cons _ (ih.trans ?_)
    rw [List.flatMap_append]
    exact List.perm_append_comm

theorem walk_root_perm (t : FTree φ α) : (walk [([], t)]).Perm t.nodes := by
  simpa [below] using walk_perm [([], t)]

/-! ## Relabelling -/

theorem Forest.located_map (h : α → β) (ks : Forest φ α) (p : Path) (i : Nat) :
    (ks.map h).located p i = (ks.located p i).map fun e => (e.1, e.2.map h) := by
  induction ks generalizing i with
  | nil => rfl
  | cons f a ks rest _ ih => simp [map, located, ih, FTree.map]

theorem walk_map (h : α → β) (q : List (Path × FTree φ α)) :
    walk (q.map fun e => (e.1, e.2.map h)) = (walk q).map fun e => (e.1, e.2.map h) := by
  fun_induction walk q with
  | case1 => simp [walk]
  | case2 p t todo ih =>
    rw [List.map_cons, walk, List.map_cons, ← ih, List.map_append, ← Forest.located_map]
    rfl

theorem Forest.entries_map (h : α → β) (ks : Forest φ α) :
    (ks.map h).entries = ks.entries.map fun e => (e.1, e.2.map h) := by
  induction ks with
  | nil => rfl
  | cons f a ks rest _ ih => simp [map, ih, FTree.map]

theorem Forest.nodes_map (h : α → β) (ks : Forest φ α) :
    (ks.map h).nodes = ks.nodes.map fun e => (e.1, e.2.map h) := by
  induction ks with
  | nil => rfl
  | cons f a ks rest ihk ihr => simp [map, nodes, ihk, ihr, FTree.map, Function.comp_def]

theorem FTree.nodes_map (h : α → β) (t : FTree φ α) :
    (t.map h).nodes = t.nodes.map fun e => (e.1, e.2.map h) := by
  simp [nodes, FTree.map, Forest.nodes_map]

theorem Forest.map_modify (h : α → β) (ks : Forest φ α) (i : Nat) {g : FTree φ α → FTree φ α}
    {g' : FTree φ β → FTree φ β} (hg : ∀ t, (g t).map h = g' (t.map h)) :
    (ks.modify i g).map h = (ks.map h).modify i g' := by
  induction ks generalizing i with
  | nil => cases i <;> rfl
  | cons f a ks rest _ ih => cases i with
    | zero =>
      have h0 : FTree.mk (h (g ⟨a, ks⟩).label) ((g ⟨a, ks⟩).children.map h) =
        g' ⟨h a, ks.map h⟩ := hg ⟨a, ks⟩
      simp [modify, map, ← h0]
    | succ i => simp [modify, map, ih]

theorem FTree.map_update (h : α → β) (t : FTree φ α) (p : Path) {g : FTree φ α → FTree φ α}
    {g' : FTree φ β → FTree φ β} (hg : ∀ t, (g t).map h = g' (t.map h)) :
    (t.update p g).map h = (t.map h).update p g' := by
  induction p generalizing t with
  | nil => exact hg t
  | cons i p ih => exact congrArg (FTree.mk _) (Forest.map_modify h _ i fun s => ih s)

/-- An edit that relabelling undoes. -/
theorem Forest.map_modify_of_eq (h : α → β) (ks : Forest φ α) (i : Nat)
    {g : FTree φ α → FTree φ α} (hg : ∀ t, (g t).map h = t.map h) :
    (ks.modify i g).map h = ks.map h := by
  induction ks generalizing i with
  | nil => cases i <;> rfl
  | cons f a ks rest _ ih => cases i with
    | zero =>
      have h0 := FTree.mk.inj (hg ⟨a, ks⟩)
      simp only [modify, map, h0.1, h0.2]
    | succ i => simp only [modify, map, ih]

theorem FTree.map_update_of_eq (h : α → β) (t : FTree φ α) (p : Path)
    {g : FTree φ α → FTree φ α} (hg : ∀ t, (g t).map h = t.map h) :
    (t.update p g).map h = t.map h := by
  induction p generalizing t with
  | nil => exact hg t
  | cons i p ih => exact congrArg (FTree.mk _) (Forest.map_modify_of_eq h _ i fun s => ih s)

theorem FTree.get?_map (h : α → β) (t : FTree φ α) (p : Path) :
    (t.map h).get? p = (t.get? p).map (map h) := by
  induction p generalizing t with
  | nil => rfl
  | cons i p ih =>
    have htrees : (t.map h).children.trees = t.children.trees.map (map h) := by
      simp [FTree.map, Forest.trees, Forest.entries_map]
    rw [get?_cons, get?_cons, htrees, List.getElem?_map]
    cases t.children.trees[i]? with
    | none => rfl
    | some s => exact ih s

theorem FTree.slot?_map (h : α → β) (t : FTree φ α) (p : Path) :
    (t.map h).slot? p = (t.slot? p).map fun x => ((h x.1.1, x.1.2), x.2) := by
  have hshape : (t.map h).shape? p.dropLast =
      (t.shape? p.dropLast).map fun x => (h x.1, x.2) := by
    rw [shape?, shape?, get?_map, Option.map_map, Option.map_map]
    refine congrFun (congrArg Option.map (funext fun s => ?_)) _
    simp [FTree.map, Forest.fields, Forest.entries_map]
  simp only [slot?, hshape, Option.map_bind, Option.bind_map]
  simp [Function.comp_def]

theorem FTree.label?_map (h : α → β) (t : FTree φ α) (p : Path) :
    (t.map h).label? p = (t.label? p).map h := by
  rw [label?, label?, get?_map, Option.map_map, Option.map_map]; rfl

/-! ## Folds -/

variable {δ : Type*}

/-- The values of the trees of a forest, where `g` computes that of a tree from those of its
children. -/
def Forest.fold (g : FTree φ α → List (φ × δ) → δ) : Forest φ α → List (φ × δ)
  | nil => []
  | cons f a ks rest => (f, g ⟨a, ks⟩ (ks.fold g)) :: rest.fold g

def FTree.fold (g : FTree φ α → List (φ × δ) → δ) (t : FTree φ α) : δ := g t (t.children.fold g)

theorem Forest.fold_eq (g : FTree φ α → List (φ × δ) → δ) (ks : Forest φ α) :
    ks.fold g = ks.entries.map fun e => (e.1, e.2.fold g) := by
  induction ks with
  | nil => rfl
  | cons f a ks rest _ ih => rw [fold, entries, List.map_cons, ← ih]; rfl

/-- A subtree may be replaced by one of the same value, if the nodes above it do not look
further. -/
theorem FTree.fold_update {g : FTree φ α → List (φ × δ) → δ} {t s : FTree φ α} {p : Path}
    {h : FTree φ α → FTree φ α} (hs : t.get? p = some s) (hself : (h s).fold g = s.fold g)
    (habove : ∀ n i r values, n.get? (i :: r) = some s →
      g (n.update (i :: r) h) values = g n values) : (t.update p h).fold g = t.fold g := by
  induction p generalizing t with
  | nil =>
    obtain rfl : t = s := Option.some.inj hs
    exact hself
  | cons i p ih =>
    have hchildren : (t.update (i :: p) h).children.fold g = t.children.fold g := by
      rw [Forest.fold_eq, Forest.fold_eq]
      refine Forest.map_entries_modify (fun f s => (f, s.fold g)) fun f c hc => ?_
      rw [get?_cons, hc] at hs
      exact congrArg (Prod.mk f) (ih hs)
    rw [FTree.fold, hchildren, habove t i p _ hs]
    rfl

end FieldTree
