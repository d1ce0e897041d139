import LogicalForms.Features.Key

/-!
# Sparse vectors

A `FeatureVector` gives weights to finitely many keys.  Its entries are kept in ascending order of
their keys, each key once, so two vectors that store the same are equal (`FeatureVector.ext_get?`).

Every change of single entries is an instance of `FeatureVector.alter`, whose effect is
`FeatureVector.get?_alter`.
-/

namespace LogicalForms

variable {α : Type}

/-- A finite map from keys to weights. -/
structure FeatureVector (α : Type) where
  /-- The entries in ascending order of their keys. -/
  entries : List (FeatureKey × α)
  ascending : entries.Pairwise fun a b => a.1 < b.1

namespace FeatureVector

/-! ### Entries -/

/-- The weight stored for `k` in a list of entries. -/
def lookup (k : FeatureKey) : List (FeatureKey × α) → Option α
  | [] => none
  | (j, x) :: es => if j = k then some x else lookup k es

/-- Replaces what an ascending list of entries stores for `k`. -/
def alterEntries (k : FeatureKey) (f : Option α → Option α) :
    List (FeatureKey × α) → List (FeatureKey × α)
  | [] => ((f none).map (k, ·)).toList
  | (j, x) :: es =>
    if k < j then ((f none).map (k, ·)).toList ++ (j, x) :: es
    else if j = k then ((f (some x)).map (k, ·)).toList ++ es
    else (j, x) :: alterEntries k f es

theorem lookup_eq_none_of_lt {k : FeatureKey} {es : List (FeatureKey × α)}
    (h : ∀ e ∈ es, k < e.1) : lookup k es = none := by
  induction es with
  | nil => rfl
  | cons e es ih =>
    have hk : ¬e.1 = k := fun he => FeatureKey.lt_irrefl k (he ▸ h e (by simp))
    simpa [lookup, hk] using ih fun e' he' => h e' (by simp [he'])

theorem key_of_mem_alterEntries {k : FeatureKey} {f : Option α → Option α}
    {es : List (FeatureKey × α)} {e : FeatureKey × α} (h : e ∈ alterEntries k f es) :
    e.1 = k ∨ e ∈ es := by
  induction es with
  | nil =>
    simp only [alterEntries, Option.mem_toList, Option.map_eq_some_iff] at h
    obtain ⟨x, -, rfl⟩ := h
    exact .inl rfl
  | cons e' es ih =>
    simp only [alterEntries] at h
    split at h
    · simp only [List.mem_append, Option.mem_toList, Option.map_eq_some_iff] at h
      rcases h with ⟨x, -, rfl⟩ | h
      · exact .inl rfl
      · exact .inr h
    · split at h
      · simp only [List.mem_append, Option.mem_toList, Option.map_eq_some_iff] at h
        rcases h with ⟨x, -, rfl⟩ | h
        · exact .inl rfl
        · exact .inr (List.mem_cons_of_mem _ h)
      · rcases List.mem_cons.1 h with rfl | h
        · exact .inr (by simp)
        · exact (ih h).imp_right (List.mem_cons_of_mem _)

theorem ascending_alterEntries (k : FeatureKey) (f : Option α → Option α)
    {es : List (FeatureKey × α)} (h : es.Pairwise fun a b => a.1 < b.1) :
    (alterEntries k f es).Pairwise fun a b => a.1 < b.1 := by
  induction es with
  | nil => cases hf : f none <;> simp [alterEntries, hf]
  | cons e es ih =>
    obtain ⟨he, hes⟩ := List.pairwise_cons.1 h
    simp only [alterEntries]
    split
    · next hlt =>
      have hall : ∀ e' ∈ e :: es, k < e'.1 := by
        intro e' he'
        rcases List.mem_cons.1 he' with rfl | he'
        · exact hlt
        · exact FeatureKey.lt_trans hlt (he e' he')
      cases f none
      · simpa using h
      · exact List.pairwise_cons.2 ⟨hall, h⟩
    · split
      · next heq =>
        cases f (some e.2)
        · simpa using hes
        · simpa [← heq] using ⟨fun a b hab => he (a, b) hab, hes⟩
      · next hlt hne =>
        refine List.pairwise_cons.2 ⟨fun e' he' => ?_, ih hes⟩
        rcases key_of_mem_alterEntries he' with hk | hmem
        · exact hk ▸ FeatureKey.lt_of_not_lt_of_ne hlt (Ne.symm hne)
        · exact he e' hmem

theorem lookup_alterEntries (k j : FeatureKey) (f : Option α → Option α)
    {es : List (FeatureKey × α)} (h : es.Pairwise fun a b => a.1 < b.1) :
    lookup j (alterEntries k f es) = if j = k then f (lookup k es) else lookup j es := by
  have single (o : Option α) (es : List (FeatureKey × α)) :
      lookup j ((o.map (k, ·)).toList ++ es) =
        if j = k then (match o with | some x => some x | none => lookup j es) else lookup j es := by
    cases o <;> by_cases hj : k = j <;> simp [lookup, hj, eq_comm]
  induction es with
  | nil =>
    have := single (f none) []
    simp only [List.append_nil] at this
    rw [alterEntries, this]
    cases hf : f none <;> simp [lookup, hf]
  | cons e es ih =>
    obtain ⟨he, hes⟩ := List.pairwise_cons.1 h
    simp only [alterEntries]
    split
    · next hlt =>
      have hnone : lookup k (e :: es) = none := lookup_eq_none_of_lt (by
        intro e' he'
        rcases List.mem_cons.1 he' with rfl | he'
        · exact hlt
        · exact FeatureKey.lt_trans hlt (he e' he'))
      rw [single, hnone]
      by_cases hj : j = k
      · subst hj
        cases hf : f none <;> simp [hnone]
      · simp [hj]
    · split
      · next heq =>
        have hnone : lookup k es = none := lookup_eq_none_of_lt (by simpa [heq] using he)
        rw [single]
        by_cases hj : j = k
        · subst hj
          cases hf : f (some e.2) <;> simp [lookup, heq, hnone, hf]
        · simp [lookup, heq, hj, Ne.symm hj]
      · next hlt hne =>
        have := ih hes
        by_cases hj : j = k
        · subst hj
          simp [lookup, hne, this]
        · simp only [lookup, this, hj, if_false]

theorem lookup_eq_of_mem {es : List (FeatureKey × α)} (h : es.Pairwise fun a b => a.1 < b.1)
    {k : FeatureKey} {x : α} : lookup k es = some x ↔ (k, x) ∈ es := by
  induction es with
  | nil => simp [lookup]
  | cons e es ih =>
    obtain ⟨he, hes⟩ := List.pairwise_cons.1 h
    by_cases hk : e.1 = k
    · have hnot : ∀ y, (k, y) ∉ es := fun y hy =>
        FeatureKey.lt_irrefl k (by simpa [hk] using he (k, y) hy)
      obtain ⟨j, y⟩ := e
      simp only at hk
      subst hk
      simp [lookup, hnot, eq_comm]
    · obtain ⟨j, y⟩ := e
      simp only at hk
      simp [lookup, hk, ih hes, Ne.symm hk]

/-! ### Vectors -/

/-- The vector without entries. -/
def empty : FeatureVector α := ⟨[], .nil⟩

instance : EmptyCollection (FeatureVector α) := ⟨empty⟩

instance : Inhabited (FeatureVector α) := ⟨empty⟩

/-- The weight stored for `k`, if there is one. -/
def get? (v : FeatureVector α) (k : FeatureKey) : Option α := lookup k v.entries

/-- There is an entry for `k`. -/
def contains (v : FeatureVector α) (k : FeatureKey) : Bool := (v.get? k).isSome

/-- The number of entries. -/
def size (v : FeatureVector α) : Nat := v.entries.length

/-- There is no entry. -/
def isEmpty (v : FeatureVector α) : Bool := v.entries.isEmpty

/-- The keys in ascending order. -/
def keys (v : FeatureVector α) : List FeatureKey := v.entries.map Prod.fst

/-- Replaces what is stored for `k`. -/
def alter (v : FeatureVector α) (k : FeatureKey) (f : Option α → Option α) : FeatureVector α :=
  ⟨alterEntries k f v.entries, ascending_alterEntries k f v.ascending⟩

/-- Stores a weight for `k`. -/
def set (v : FeatureVector α) (k : FeatureKey) (x : α) : FeatureVector α :=
  v.alter k fun _ => some x

/-- Removes the entry for `k`. -/
def erase (v : FeatureVector α) (k : FeatureKey) : FeatureVector α := v.alter k fun _ => none

/-- The vector with these entries; of equal keys the last one counts. -/
def ofList (es : List (FeatureKey × α)) : FeatureVector α :=
  es.foldl (fun v (k, x) => v.set k x) empty

/-- The entries whose weight passes the test. -/
def filter (p : α → Bool) (v : FeatureVector α) : FeatureVector α :=
  ⟨v.entries.filter fun e => p e.2, v.ascending.filter _⟩

/-- The entries have the same keys, and equal weights by the equality of the number type. -/
instance [BEq α] : BEq (FeatureVector α) := ⟨fun v w => v.entries == w.entries⟩

@[simp] theorem get?_empty (k : FeatureKey) : (empty : FeatureVector α).get? k = none := rfl

theorem get?_alter (v : FeatureVector α) (k j : FeatureKey) (f : Option α → Option α) :
    (v.alter k f).get? j = if j = k then f (v.get? k) else v.get? j :=
  lookup_alterEntries k j f v.ascending

@[simp] theorem get?_set (v : FeatureVector α) (k j : FeatureKey) (x : α) :
    (v.set k x).get? j = if j = k then some x else v.get? j := get?_alter v k j _

@[simp] theorem get?_erase (v : FeatureVector α) (k j : FeatureKey) :
    (v.erase k).get? j = if j = k then none else v.get? j := get?_alter v k j _

theorem get?_eq_some_iff {v : FeatureVector α} {k : FeatureKey} {x : α} :
    v.get? k = some x ↔ (k, x) ∈ v.entries := lookup_eq_of_mem v.ascending

@[simp] theorem get?_filter (p : α → Bool) (v : FeatureVector α) (k : FeatureKey) :
    (v.filter p).get? k = (v.get? k).filter p := by
  apply Option.ext
  intro x
  rw [Option.filter_eq_some_iff, get?_eq_some_iff, get?_eq_some_iff]
  simp [filter]

/-- **Vectors are determined by what they store.** -/
theorem ext_get? {v w : FeatureVector α} (h : ∀ k, v.get? k = w.get? k) : v = w := by
  have key {es fs : List (FeatureKey × α)} (hes : es.Pairwise fun a b => a.1 < b.1)
      (hfs : fs.Pairwise fun a b => a.1 < b.1) (h : ∀ e, e ∈ es ↔ e ∈ fs) : es = fs := by
    induction es generalizing fs with
    | nil =>
      cases fs with
      | nil => rfl
      | cons f fs => simpa using (h f).2 (by simp)
    | cons e es ih =>
      cases fs with
      | nil => simpa using (h e).1 (by simp)
      | cons f fs =>
        obtain ⟨he, hes⟩ := List.pairwise_cons.1 hes
        obtain ⟨hf, hfs'⟩ := List.pairwise_cons.1 hfs
        have hef : e = f := by
          rcases List.mem_cons.1 ((h e).1 (by simp)) with hef | hmem
          · exact hef
          · rcases List.mem_cons.1 ((h f).2 (by simp)) with hfe | hmem'
            · exact hfe.symm
            · exact absurd (FeatureKey.lt_trans (hf _ hmem) (he _ hmem')) (FeatureKey.lt_irrefl _)
        subst hef
        congr 1
        refine ih hes hfs' fun e' => ?_
        have := h e'
        simp only [List.mem_cons] at this
        constructor <;> intro hmem
        · rcases this.1 (.inr hmem) with rfl | hmem'
          · exact absurd (he _ hmem) (FeatureKey.lt_irrefl _)
          · exact hmem'
        · rcases this.2 (.inr hmem) with rfl | hmem'
          · exact absurd (hf _ hmem) (FeatureKey.lt_irrefl _)
          · exact hmem'
  obtain ⟨es, hes⟩ := v
  obtain ⟨fs, hfs⟩ := w
  have : es = fs := key hes hfs fun (k, x) => by
    have := h k
    rw [Option.ext_iff] at this
    simpa only [get?_eq_some_iff] using this x
  subst this
  rfl

end FeatureVector

end LogicalForms
