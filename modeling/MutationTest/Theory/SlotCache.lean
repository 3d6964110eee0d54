import Mathlib.Data.List.Infix

/-! # A cache of one slot

The slot holds the value computed for some input under a key, which is only an abbreviation of that
input. An input with the same key gets that value; any other is computed and stored, if the
computation succeeds. `replay_own_iff` says which sequences of inputs all get values of their
own. -/

namespace SlotCache

variable {ι κ ν : Type*} [DecidableEq κ] (key : ι → κ) (compute : ι → Option ν)

/-- The value in the slot, where the key fits. -/
def hit (slot : Option (κ × ν)) (i : ι) : Option ν :=
  (slot.filter fun e => e.1 = key i).map (·.2)

omit [DecidableEq κ] in
/-- The slot after a computation. -/
def store (slot : Option (κ × ν)) (i : ι) : Option (κ × ν) :=
  ((compute i).map (key i, ·)).or slot

def lookup (slot : Option (κ × ν)) (i : ι) : Option ν × Option (κ × ν) :=
  match hit key slot i with
  | some v => (some v, slot)
  | none => (compute i, store key compute slot i)

/-- The inputs of a sequence with what they get. -/
def replay : Option (κ × ν) → List ι → List (ι × Option ν)
  | _, [] => []
  | slot, i :: is => (i, (lookup key compute slot i).1) :: replay (lookup key compute slot i).2 is

/-- Where the key fits, the value is that of the input. -/
def Fresh (slot : Option (κ × ν)) (i : ι) : Prop :=
  ∀ v, hit key slot i = some v → compute i = some v

/-- Every input of a sequence is fresh after the computations for the inputs before it. -/
def AllFresh (slot : Option (κ × ν)) (is : List ι) : Prop :=
  ∀ pre i, pre ++ [i] <+: is → Fresh key compute (pre.foldl (store key compute) slot) i

section
variable {key : ι → κ} {compute : ι → Option ν} {slot : Option (κ × ν)} {i : ι} {is is' : List ι}

theorem hit_eq_some {v : ν} : hit key slot i = some v ↔ slot = some (key i, v) := by
  simp only [hit, Option.map_eq_some_iff, Option.filter_eq_some_iff, decide_eq_true_eq]
  constructor
  · rintro ⟨⟨k, v⟩, ⟨h, rfl⟩, rfl⟩
    exact h
  · rintro rfl
    exact ⟨_, ⟨rfl, rfl⟩, rfl⟩

/-- A fresh input gets its own value, and the slot is as after its computation. -/
theorem lookup_of_fresh (h : Fresh key compute slot i) :
    lookup key compute slot i = (compute i, store key compute slot i) := by
  unfold lookup
  split
  next v hv =>
    rw [store, h v hv, hit_eq_some.mp hv]
    rfl
  next => rfl

theorem fresh_of_lookup (h : (lookup key compute slot i).1 = compute i) :
    Fresh key compute slot i := by
  intro v hv
  rw [lookup, hv] at h
  exact h.symm

theorem allFresh_cons : AllFresh key compute slot (i :: is) ↔
    Fresh key compute slot i ∧ AllFresh key compute (store key compute slot i) is := by
  constructor
  · intro h
    refine ⟨h [] i (List.prefix_append [i] is), fun pre j hpre => ?_⟩
    exact h (i :: pre) j (List.cons_prefix_cons.mpr ⟨rfl, hpre⟩)
  · rintro ⟨h, hrest⟩ pre j hpre
    cases pre with
    | nil =>
      obtain ⟨rfl, -⟩ := List.cons_prefix_cons.mp hpre
      exact h
    | cons i' pre =>
      obtain ⟨rfl, htail⟩ := List.cons_prefix_cons.mp hpre
      exact hrest pre j htail

/-- All inputs get values of their own exactly when all are fresh. -/
theorem replay_own_iff : (∀ x ∈ replay key compute slot is, x.2 = compute x.1) ↔
    AllFresh key compute slot is := by
  induction is generalizing slot with
  | nil =>
    refine iff_of_true (fun x hx => nomatch hx) fun pre i hpre => ?_
    simp at hpre
  | cons i is ih =>
    rw [allFresh_cons, replay, List.forall_mem_cons]
    constructor
    · rintro ⟨hi, his⟩
      have hfresh := fresh_of_lookup hi
      rw [lookup_of_fresh hfresh] at his
      exact ⟨hfresh, ih.mp his⟩
    · rintro ⟨hfresh, his⟩
      rw [lookup_of_fresh hfresh]
      exact ⟨rfl, ih.mpr his⟩

theorem map_fst_replay : (replay key compute slot is).map (·.1) = is := by
  induction is generalizing slot with
  | nil => rfl
  | cons i is ih => rw [replay, List.map_cons, ih]

theorem mem_of_mem_replay {x : ι × Option ν} (h : x ∈ replay key compute slot is) : x.1 ∈ is := by
  have hmem := List.mem_map_of_mem (f := (·.1)) h
  rwa [map_fst_replay] at hmem

theorem replay_append : replay key compute slot (is ++ is') =
    replay key compute slot is ++
      replay key compute (is.foldl (fun s i => (lookup key compute s i).2) slot) is' := by
  induction is generalizing slot with
  | nil => rfl
  | cons i is ih => rw [List.cons_append, replay, replay, ih]; rfl

/-- Different keys never meet. -/
theorem allFresh_of_pairwise (hslot : ∀ e ∈ slot, ∀ i ∈ is, key i ≠ e.1)
    (h : is.Pairwise fun i j => key i ≠ key j) : AllFresh key compute slot is := by
  induction is generalizing slot with
  | nil => exact fun pre i hpre => by simp at hpre
  | cons i is ih =>
    obtain ⟨hi, his⟩ := List.pairwise_cons.mp h
    refine allFresh_cons.mpr ⟨fun v hv => ?_, ih (fun e he j hj => ?_) his⟩
    · exact absurd rfl (hslot _ (hit_eq_some.mp hv) i List.mem_cons_self)
    · unfold store at he
      cases hc : compute i with
      | none =>
        rw [hc] at he
        exact hslot e he j (List.mem_cons_of_mem _ hj)
      | some v =>
        rw [hc] at he
        obtain rfl : (key i, v) = e := Option.some.inj he
        exact (hi j hj).symm

end

end SlotCache
