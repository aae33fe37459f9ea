import ClauseSharing.Glue.Statistics
import ClauseSharing.Proofs.Estimate.Deviation
import Mathlib.Data.Finset.Card
import Mathlib.Data.Finset.Dedup

/-!
Glue statistics are kept per multiset of literals.

The signature of a clause is the sorted permutation of its literals (`Signature.of_eq_iff`), so two
clauses share one exactly if their literals are the same up to their order. What is kept for a
signature is the moments of the glues that were recorded for it, in order
(`GlueStatistics.getElem?_recordAll`), whatever else was recorded in between.

Main statement: `GlueStatistics.kept_per_multiset`.
-/

namespace ClauseSharing

open Std

/-! ## Signatures -/

namespace Signature

instance : TransCmp order :=
  inferInstanceAs (TransCmp (List.compareLex (compare : Int32 → Int32 → Ordering)))

instance : LawfulEqCmp order :=
  inferInstanceAs (LawfulEqCmp (List.compareLex (compare : Int32 → Int32 → Ordering)))

theorem isLE_compareExternals {a b : Int32} : (compareExternals a b).isLE = true ↔ a ≤ b := by
  show (compare a b).isLE = true ↔ a ≤ b
  exact Std.isLE_compare

/-- The order of signatures is the lexicographic one. -/
theorem order_eq_lt_iff {s t : Signature} : order s t = .lt ↔ s < t := by
  show List.compareLex (compare : Int32 → Int32 → Ordering) s t = .lt ↔ s < t
  induction s generalizing t with
  | nil => cases t <;> simp [List.compareLex_nil_nil, List.compareLex_nil_cons]
  | cons a s ih =>
    cases t with
    | nil => simp [List.compareLex_cons_nil]
    | cons b t =>
      rw [List.compareLex_cons_cons, Ordering.then_eq_lt, List.cons_lt_cons_iff, ih,
        Std.compare_eq_lt, Std.compare_eq_iff_eq]

theorem perm_of (literals : List Int32) : (of literals).Perm literals := List.mergeSort_perm ..

theorem pairwise_of (literals : List Int32) : (of literals).Pairwise (· ≤ ·) := by
  have hsorted : (of literals).Pairwise fun a b => (compareExternals a b).isLE = true := by
    refine List.pairwise_mergeSort (fun a b c hab hbc => ?_) (fun a b => ?_) literals
    · rw [isLE_compareExternals] at hab hbc ⊢
      exact Int32.le_trans hab hbc
    · rw [Bool.or_eq_true, isLE_compareExternals, isLE_compareExternals]
      exact Int32.le_total a b
  exact hsorted.imp isLE_compareExternals.mp

/-- Lists in ascending order are equal if they have the same members with the same multiplicity. -/
theorem eq_of_perm {s t : Signature} (hs : s.Pairwise (· ≤ ·)) (ht : t.Pairwise (· ≤ ·))
    (h : s.Perm t) : s = t :=
  h.eq_of_pairwise (fun _ _ _ _ => Int32.le_antisymm) hs ht

/-- The signature is the permutation of the literals that is in ascending order. -/
theorem of_eq_iff {literals : List Int32} {s : Signature} :
    of literals = s ↔ s.Pairwise (· ≤ ·) ∧ literals.Perm s := by
  constructor
  · rintro rfl
    exact ⟨pairwise_of literals, (perm_of literals).symm⟩
  · rintro ⟨hs, hperm⟩
    exact eq_of_perm (pairwise_of literals) hs ((perm_of literals).trans hperm)

theorem of_eq_of_iff {literals others : List Int32} :
    of literals = of others ↔ literals.Perm others := by
  rw [of_eq_iff, and_iff_right (pairwise_of others)]
  exact ⟨fun h => h.trans (perm_of others), fun h => h.trans (perm_of others).symm⟩

end Signature

namespace GlueStatistics

variable {K : Type} [Scalar K]

/-! ## Records -/

/-- The statistics of the listed clauses and glues, recorded one after the other. -/
def recordAll (updates : List (List Int32 × Nat)) : GlueStatistics K :=
  updates.foldl (fun s u => s.record u.1 u.2) empty

/-- The glues, in order, of the clauses with the signature. -/
def gluesAt (updates : List (List Int32 × Nat)) (sig : Signature) : List Nat :=
  (updates.filter fun u => Signature.of u.1 = sig).map (·.2)

/-- The glues, in order, of the clauses that have these literals in some order. -/
def gluesOf (updates : List (List Int32 × Nat)) (literals : List Int32) : List Nat :=
  (updates.filter fun u => u.1.Perm literals).map (·.2)

theorem gluesOf_eq (updates : List (List Int32 × Nat)) (literals : List Int32) :
    gluesOf updates literals = gluesAt updates (Signature.of literals) := by
  simp only [gluesOf, gluesAt, Signature.of_eq_of_iff]

theorem gluesAt_append (updates : List (List Int32 × Nat)) (u : List Int32 × Nat)
    (sig : Signature) : gluesAt (updates ++ [u]) sig =
      if Signature.of u.1 = sig then gluesAt updates sig ++ [u.2] else gluesAt updates sig := by
  by_cases h : Signature.of u.1 = sig <;> simp [gluesAt, h]

/-- Recording a glue changes the entry of the clause's signature, and no other. -/
theorem getElem?_record (s : GlueStatistics K) (literals : List Int32) (glue : Nat)
    (sig : Signature) : (s.record literals glue).bySignature[sig]? =
      if Signature.of literals = sig then
        some (s.bySignature[sig]?.elim (.single (Scalar.ofNat glue))
          (·.observe (Scalar.ofNat glue)))
      else s.bySignature[sig]? := by
  rw [record, TreeMap.getElem?_alter]
  by_cases h : Signature.of literals = sig
  · subst h
    rw [if_pos ReflCmp.compare_self, if_pos rfl]
    cases s.bySignature[Signature.of literals]? <;> rfl
  · rw [if_neg fun heq => h (LawfulEqCmp.eq_of_compare heq), if_neg h]

/-- What is kept for a signature is the moments of its glues. -/
theorem getElem?_recordAll (updates : List (List Int32 × Nat)) (sig : Signature) :
    (recordAll updates : GlueStatistics K).bySignature[sig]? =
      Moments.ofObservations? ((gluesAt updates sig).map Scalar.ofNat) := by
  induction updates using List.reverseRecOn with
  | nil => exact TreeMap.getElem?_emptyc
  | append_singleton updates u ih =>
    have hlast : (recordAll (updates ++ [u]) : GlueStatistics K) =
        (recordAll updates).record u.1 u.2 := by
      rw [recordAll, List.foldl_append]
      rfl
    rw [hlast, getElem?_record, gluesAt_append, ih]
    split
    · rw [List.map_append, List.map_singleton, Moments.ofObservations?_append]
    · rfl

theorem get?_recordAll (updates : List (List Int32 × Nat)) (literals : List Int32) :
    (recordAll updates : GlueStatistics K).get? literals =
      Moments.ofObservations? ((gluesOf updates literals).map Scalar.ofNat) := by
  rw [gluesOf_eq]
  exact getElem?_recordAll updates (Signature.of literals)

/-! ## Counting -/

theorem mem_keys_recordAll {updates : List (List Int32 × Nat)} {sig : Signature} :
    sig ∈ (recordAll updates : GlueStatistics K).bySignature.keys ↔
      ∃ u ∈ updates, Signature.of u.1 = sig := by
  rw [TreeMap.mem_keys, TreeMap.mem_iff_isSome_getElem?, getElem?_recordAll,
    Option.isSome_iff_ne_none, ne_eq, Moments.ofObservations?_eq_none_iff]
  simp [gluesAt]

/-- There are as many entries as multisets of literals. -/
theorem size_recordAll (updates : List (List Int32 × Nat)) :
    (recordAll updates : GlueStatistics K).size =
      (updates.map fun u => Multiset.ofList u.1).toFinset.card := by
  have hkeys : (updates.map fun u => Multiset.ofList u.1).toFinset =
      (recordAll updates : GlueStatistics K).bySignature.keys.toFinset.image Multiset.ofList := by
    ext literals
    simp only [List.mem_toFinset, List.mem_map, Finset.mem_image, mem_keys_recordAll]
    constructor
    · rintro ⟨u, hu, rfl⟩
      exact ⟨_, ⟨u, hu, rfl⟩, Multiset.coe_eq_coe.mpr (Signature.perm_of u.1)⟩
    · rintro ⟨_, ⟨u, hu, rfl⟩, rfl⟩
      exact ⟨u, hu, Multiset.coe_eq_coe.mpr (Signature.perm_of u.1).symm⟩
  have hsorted {sig : Signature}
      (h : sig ∈ (recordAll updates : GlueStatistics K).bySignature.keys.toFinset) :
      sig.Pairwise (· ≤ ·) := by
    obtain ⟨u, -, rfl⟩ := mem_keys_recordAll.mp (List.mem_toFinset.mp h)
    exact Signature.pairwise_of u.1
  rw [hkeys, Finset.card_image_of_injOn, List.toFinset_card_of_nodup TreeMap.nodup_keys,
    TreeMap.length_keys]
  · rfl
  · intro s hs t ht h
    exact Signature.eq_of_perm (hsorted hs) (hsorted ht) (Multiset.coe_eq_coe.mp h)

/-! ## Clauses whose glue varied -/

theorem mem_varying_iff {s : GlueStatistics Rat} {sig : Signature} {moments : Moments Rat} :
    (sig, moments) ∈ s.varying ↔ s.bySignature[sig]? = some moments ∧ moments.variance ≠ 0 := by
  rw [varying, toList, List.mem_filter, TreeMap.mem_toList_iff_getElem?_eq_some]
  simp

/-- A signature is listed exactly if two different glues were recorded for it. -/
theorem mem_varying_recordAll {updates : List (List Int32 × Nat)} {sig : Signature} :
    sig ∈ (recordAll updates : GlueStatistics Rat).varying.map (·.1) ↔
      ∃ g ∈ gluesAt updates sig, ∃ g' ∈ gluesAt updates sig, g ≠ g' := by
  have hvaries {moments : Moments Rat}
      (h : (recordAll updates : GlueStatistics Rat).bySignature[sig]? = some moments) :
      moments.variance ≠ 0 ↔ ∃ g ∈ gluesAt updates sig, ∃ g' ∈ gluesAt updates sig, g ≠ g' := by
    rw [getElem?_recordAll] at h
    rw [ne_eq, (Moments.describes_of_ofObservations? h).variance_eq_zero_iff]
    simp
  rw [List.mem_map]
  constructor
  · rintro ⟨⟨_, moments⟩, hmem, rfl⟩
    obtain ⟨hget, hvariance⟩ := mem_varying_iff.mp hmem
    exact (hvaries hget).mp hvariance
  · rintro ⟨g, hg, hdiffers⟩
    have hkept : (recordAll updates : GlueStatistics Rat).bySignature[sig]? ≠ none := by
      rw [getElem?_recordAll, ne_eq, Moments.ofObservations?_eq_none_iff]
      exact List.ne_nil_of_mem (List.mem_map_of_mem hg)
    obtain ⟨moments, hmoments⟩ := Option.ne_none_iff_exists'.mp hkept
    exact ⟨(sig, moments), mem_varying_iff.mpr ⟨hmoments, (hvaries hmoments).mpr ⟨g, hg, hdiffers⟩⟩,
      rfl⟩

theorem pairwise_varying (s : GlueStatistics K) : (s.varying.map (·.1)).Pairwise (· < ·) := by
  have hordered : (s.toList.map (·.1)).Pairwise (· < ·) := by
    rw [List.pairwise_map]
    exact TreeMap.ordered_keys_toList.imp Signature.order_eq_lt_iff.mp
  exact hordered.sublist (List.filter_sublist.map _)

/-- A sorted list is its own signature, so its glues are those of its permutations. -/
theorem gluesAt_of_pairwise (updates : List (List Int32 × Nat)) {sig : Signature}
    (hsig : sig.Pairwise (· ≤ ·)) : gluesAt updates sig = gluesOf updates sig := by
  rw [gluesOf_eq, Signature.of_eq_iff.mpr ⟨hsig, .rfl⟩]

theorem pairwise_of_mem_gluesAt {updates : List (List Int32 × Nat)} {sig : Signature} {g : Nat}
    (h : g ∈ gluesAt updates sig) : sig.Pairwise (· ≤ ·) := by
  obtain ⟨u, hu, -⟩ := List.mem_map.mp h
  obtain ⟨-, hsig⟩ := List.mem_filter.mp hu
  exact (Signature.of_eq_iff.mp (of_decide_eq_true hsig)).1

/-! ## Main statement -/

/-- Record any clauses with their glues. Then asking for any list of literals gives the moments of
exactly those glues, in order, whose clauses have these literals in some order, and none if there
are no such clauses. There are as many entries as different multisets of literals. In exact
fractions, the listed signatures are the sorted lists for which two different glues were recorded;
each is listed once, in lexicographic order, and with the moments that asking for it gives. -/
theorem kept_per_multiset (updates : List (List Int32 × Nat)) :
    (∀ literals, (recordAll updates : GlueStatistics K).get? literals =
      Moments.ofObservations? ((gluesOf updates literals).map Scalar.ofNat)) ∧
    (recordAll updates : GlueStatistics K).size =
      (updates.map fun u => Multiset.ofList u.1).toFinset.card ∧
    let s : GlueStatistics Rat := recordAll updates
    (∀ sig, sig ∈ s.varying.map (·.1) ↔ sig.Pairwise (· ≤ ·) ∧
      ∃ g ∈ gluesOf updates sig, ∃ g' ∈ gluesOf updates sig, g ≠ g') ∧
    (s.varying.map (·.1)).Pairwise (· < ·) ∧
    ∀ entry ∈ s.varying, s.get? entry.1 = some entry.2 := by
  refine ⟨get?_recordAll updates, size_recordAll updates, fun sig => ?_, pairwise_varying _, ?_⟩
  · rw [mem_varying_recordAll]
    constructor
    · rintro ⟨g, hg, hdiffers⟩
      have hsig := pairwise_of_mem_gluesAt hg
      rw [gluesAt_of_pairwise updates hsig] at hg hdiffers
      exact ⟨hsig, g, hg, hdiffers⟩
    · rintro ⟨hsig, hdiffers⟩
      rwa [gluesAt_of_pairwise updates hsig]
  · rintro ⟨sig, moments⟩ hentry
    have hlisted := mem_varying_recordAll.mp (List.mem_map_of_mem hentry)
    obtain ⟨g, hg, -⟩ := hlisted
    rw [get?_recordAll, ← gluesAt_of_pairwise updates (pairwise_of_mem_gluesAt hg),
      ← getElem?_recordAll]
    exact (mem_varying_iff.mp hentry).1

end GlueStatistics

end ClauseSharing
