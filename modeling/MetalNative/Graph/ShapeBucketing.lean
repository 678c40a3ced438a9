import MetalNative.Core.Layout
import MetalNative.Graph.GraphCache
import Mathlib.Data.Int.ConditionallyCompleteOrder
import Mathlib.Order.Closure

namespace MetalNative

open List

/-!
# Shape bucketing

The rest of `shape_bucketing.mm`, and the laws of the bucketed shapes.

* `IsBucket`, `bucketClosure` — `bucket_size` gives the least bucket that is not less; it is a
  closure operator, and so is the bucketing of a dimension (`dimClosure`).
* `padTensor`, `sliceTensor` — the nodes that a graph is given; MPSGraph is a parameter, and
  `MPSGraph.Documented` is what its nodes mean.
* `bucketing_laws` — bucketing grows, is monotone and idempotent, and slicing undoes padding.
-/

open Broadcast (Within)

/-! ### The functions -/

/-- `ShapeBucketer::needs_bucketing`. -/
def needsBucketing (shape : MNShape) : Bool :=
  shape.any fun dim => dim > 0 && bucketSize (toSizeT dim) != toSizeT dim

/-- The tensors of a graph of MPSGraph, with the two kinds of nodes that are added here. -/
structure MPSGraph (τ α : Type) where
  shape : τ → List ℕ
  value : τ → List ℕ → α
  padTensor : (tensor : τ) → (leftPadding rightPadding : List ℤ) → (constantValue : α) → τ
  sliceTensor : (tensor : τ) → (starts ends strides : List ℤ) → τ

variable {τ α : Type} [Zero α]

/-- The check that `pad_tensor` and `slice_tensor` make of the dimensions. -/
def fitsBucket (actual bucketed : MNShape) : Bool :=
  (actual.zip bucketed).all fun (actualDim, bucketedDim) => bucketedDim ≥ actualDim

/-- Some dimension differs. -/
def differs (actual bucketed : MNShape) : Bool :=
  (actual.zip bucketed).any fun (actualDim, bucketedDim) => actualDim ≠ bucketedDim

/-- `pad_tensor`. -/
def padTensor (graph : MPSGraph τ α) (tensor : τ) (actual bucketed : MNShape) :
    Except MNException τ := do
  mnCheck (actual.length = bucketed.length) "pad_tensor: shape rank mismatch"
  mnCheck (fitsBucket actual bucketed = true)
    "pad_tensor: bucketed dimension must be >= actual dimension"
  if differs actual bucketed then
    let left := List.replicate actual.length 0
    let right := List.zipWith (fun actualDim bucketedDim => toInt64 (bucketedDim - actualDim))
      actual bucketed
    return graph.padTensor tensor left right 0
  return tensor

/-- `slice_tensor`. -/
def sliceTensor (graph : MPSGraph τ α) (tensor : τ) (bucketed actual : MNShape) :
    Except MNException τ := do
  mnCheck (actual.length = bucketed.length) "slice_tensor: shape rank mismatch"
  mnCheck (fitsBucket actual bucketed = true)
    "slice_tensor: bucketed dimension must be >= actual dimension"
  if differs actual bucketed then
    let starts := List.replicate actual.length 0
    let strides := List.replicate actual.length 1
    return graph.sliceTensor tensor starts actual strides
  return tensor

/-! ### Buckets -/

/-- What a size can be rounded up to. -/
def IsBucket (n : ℕ) : Prop := n ∈ kBucketSizes ∨ 16384 ≤ n

theorem pairwise_kBucketSizes : kBucketSizes.Pairwise (· ≤ ·) := by decide

/-- A search through a sorted list finds the least element that is not less. -/
theorem find?_least {l : List ℕ} (hl : l.Pairwise (· ≤ ·)) {n b : ℕ}
    (h : l.find? (fun c => n ≤ c) = some b) : b ∈ l ∧ n ≤ b ∧ ∀ c ∈ l, n ≤ c → b ≤ c := by
  refine ⟨mem_of_find?_eq_some h, by simpa using find?_some h, ?_⟩
  induction l with
  | nil => simp at h
  | cons x l ih =>
    obtain ⟨hx, hl'⟩ := pairwise_cons.mp hl
    intro c hc hnc
    by_cases hnx : n ≤ x
    · obtain rfl : x = b := by simpa [hnx] using h
      rcases mem_cons.mp hc with rfl | hc
      · exact le_refl c
      · exact hx c hc
    · have hrest : l.find? (fun c => n ≤ c) = some b := by simpa [hnx] using h
      rcases mem_cons.mp hc with rfl | hc
      · exact absurd hnc hnx
      · exact ih hl' hrest c hc hnc

/-- `bucket_size` gives the least bucket that is not less than the size. -/
theorem bucketSize_spec (n : ℕ) :
    n ≤ bucketSize n ∧ IsBucket (bucketSize n) ∧ ∀ m, n ≤ m → IsBucket m → bucketSize n ≤ m := by
  unfold bucketSize
  split_ifs with hlast
  · exact ⟨le_refl n, .inr hlast, fun m hm _ => hm⟩
  · have hlt : n < 16384 := Nat.lt_of_not_le hlast
    cases hfind : kBucketSizes.find? (fun c => n ≤ c) with
    | none =>
      -- the last bucket would have been found
      have hnone := find?_eq_none.mp hfind 16384 (by decide)
      simp at hnone
      omega
    | some b =>
      obtain ⟨hmem, hle, hleast⟩ := find?_least pairwise_kBucketSizes hfind
      refine ⟨hle, .inl hmem, fun m hnm hm => ?_⟩
      rcases hm with hm | hm
      · exact hleast m hm hnm
      · exact le_trans (hleast 16384 (by decide) (by omega)) hm

/-- `bucket_size` as a closure operator. -/
def bucketClosure : ClosureOperator ℕ :=
  .ofPred bucketSize IsBucket (fun n => (bucketSize_spec n).1) (fun n => (bucketSize_spec n).2.1)
    fun n m hnm hm => (bucketSize_spec n).2.2 m hnm hm

/-- The bucketing of a dimension, in exact arithmetic. -/
def bucketDim (dim : ℤ) : ℤ := if dim ≤ 0 then dim else (bucketSize dim.toNat : ℕ)

/-- A dimension that is not positive, or a bucket. -/
def IsSettled (dim : ℤ) : Prop := dim ≤ 0 ∨ IsBucket dim.toNat

theorem bucketDim_spec (d : ℤ) :
    d ≤ bucketDim d ∧ IsSettled (bucketDim d) ∧ ∀ e, d ≤ e → IsSettled e → bucketDim d ≤ e := by
  unfold bucketDim IsSettled
  obtain ⟨hle, hbucket, hleast⟩ := bucketSize_spec d.toNat
  split_ifs with hd
  · exact ⟨le_refl d, .inl hd, fun e he _ => he⟩
  · refine ⟨by omega, .inr (by simpa using hbucket), fun e hde he => ?_⟩
    rcases he with he | he
    · omega
    · have := hleast e.toNat (by omega) he
      omega

/-- The bucketing of a dimension as a closure operator. -/
noncomputable def dimClosure : ClosureOperator ℤ :=
  .ofPred bucketDim IsSettled (fun d => (bucketDim_spec d).1) (fun d => (bucketDim_spec d).2.1)
    fun d e hde he => (bucketDim_spec d).2.2 e hde he

/-! ### Bucketed shapes -/

/-- Every dimension is an `int64_t`. -/
def MNShape.IsInt64s (shape : MNShape) : Prop := ∀ d ∈ shape, -2 ^ 63 ≤ d ∧ d < 2 ^ 63

theorem bucketDim_lt {d : ℤ} (hd : -2 ^ 63 ≤ d ∧ d < 2 ^ 63) :
    -2 ^ 63 ≤ bucketDim d ∧ bucketDim d < 2 ^ 63 := by
  have hle := (bucketDim_spec d).1
  refine ⟨hd.1.trans hle, ?_⟩
  have hleast := (bucketDim_spec d).2.2 (max d 16384) (le_max_left ..)
    (.inr (.inr (by omega)))
  omega

variable {s : MNShape}

/-- Nothing wraps. -/
theorem bucketShape_eq (hs : s.IsInt64s) : bucketShape s = s.map bucketDim := by
  unfold bucketShape bucketDim
  apply map_congr_left
  intro d hd
  have hd' := hs d hd
  split_ifs with hpos
  · rfl
  · have hlt := (bucketDim_lt hd').2
    rw [bucketDim, if_neg hpos] at hlt
    rw [toSizeT_of_nonneg (by omega) hd'.2]
    exact toInt64_natCast (by omega)

theorem isInt64s_bucketShape (hs : s.IsInt64s) : (bucketShape s).IsInt64s := by
  rw [bucketShape_eq hs]
  intro d hd
  obtain ⟨e, he, rfl⟩ := mem_map.mp hd
  exact bucketDim_lt (hs e he)

theorem le_bucketShape (hs : s.IsInt64s) :
    Forall₂ (· ≤ ·) s (bucketShape s) := by
  rw [bucketShape_eq hs, forall₂_map_right_iff, forall₂_same]
  exact fun d _ => dimClosure.le_closure d

theorem bucketShape_mono {s s' : MNShape} (hs : s.IsInt64s) (hs' : s'.IsInt64s)
    (h : Forall₂ (· ≤ ·) s s') : Forall₂ (· ≤ ·) (bucketShape s) (bucketShape s') := by
  rw [bucketShape_eq hs, bucketShape_eq hs', forall₂_map_left_iff,
    forall₂_map_right_iff]
  exact h.imp fun _ _ hle => dimClosure.monotone hle

theorem bucketShape_idem (hs : s.IsInt64s) :
    bucketShape (bucketShape s) = bucketShape s := by
  rw [bucketShape_eq (isInt64s_bucketShape hs), bucketShape_eq hs, map_map]
  apply map_congr_left
  exact fun d _ => dimClosure.idempotent d

/-- A shape is changed exactly if it needs bucketing. -/
theorem needsBucketing_iff (hs : s.IsInt64s) :
    needsBucketing s = true ↔ bucketShape s ≠ s := by
  have hdim : ∀ d ∈ s, (decide (d > 0) && bucketSize (toSizeT d) != toSizeT d) = true ↔
      bucketDim d ≠ d := by
    intro d hd
    have hd' := hs d hd
    unfold bucketDim
    split_ifs with hpos
    · simp [hpos]
    · rw [toSizeT_of_nonneg (by omega) hd'.2]
      simp only [Bool.and_eq_true, decide_eq_true_eq, bne_iff_ne]
      omega
  have hmap : s.map bucketDim = s ↔ ∀ d ∈ s, bucketDim d = d := by
    conv_lhs => rhs; rw [← map_id s]
    exact map_inj_left
  rw [bucketShape_eq hs, Ne, hmap, needsBucketing, any_eq_true]
  push Not
  exact exists_congr fun d => and_congr_right fun hd => hdim d hd

/-! ### Padding and slicing -/

/-- What the nodes mean: padding puts zeros around a tensor, and slicing takes every so manieth
    element of a range of each dimension. -/
structure MPSGraph.Documented (graph : MPSGraph τ α) : Prop where
  pad_shape : ∀ (x : τ) (left right : List ℕ) (c : α), left.length = (graph.shape x).length →
    right.length = (graph.shape x).length →
    graph.shape (graph.padTensor x (left.map Nat.cast) (right.map Nat.cast) c)
      = List.zipWith (· + ·) left (List.zipWith (· + ·) (graph.shape x) right)
  pad_value : ∀ (x : τ) (left right : List ℕ) (c : α), left.length = (graph.shape x).length →
    right.length = (graph.shape x).length → ∀ idx, Within (graph.shape x) idx →
    graph.value (graph.padTensor x (left.map Nat.cast) (right.map Nat.cast) c)
      (List.zipWith (· + ·) left idx) = graph.value x idx
  slice_shape : ∀ (x : τ) (starts ends strides : List ℕ), List.Forall₂ (· ≤ ·) starts ends →
    List.Forall₂ (· ≤ ·) ends (graph.shape x) → strides.length = (graph.shape x).length →
    (∀ n ∈ strides, 0 < n) →
    graph.shape (graph.sliceTensor x (starts.map Nat.cast) (ends.map Nat.cast)
        (strides.map Nat.cast))
      = List.zipWith (fun n stride => (n + stride - 1) / stride)
          (List.zipWith (· - ·) ends starts) strides
  slice_value : ∀ (x : τ) (starts ends strides : List ℕ), List.Forall₂ (· ≤ ·) starts ends →
    List.Forall₂ (· ≤ ·) ends (graph.shape x) → strides.length = (graph.shape x).length →
    (∀ n ∈ strides, 0 < n) → ∀ idx,
    Within (graph.shape (graph.sliceTensor x (starts.map Nat.cast) (ends.map Nat.cast)
      (strides.map Nat.cast))) idx →
    graph.value (graph.sliceTensor x (starts.map Nat.cast) (ends.map Nat.cast)
        (strides.map Nat.cast)) idx
      = graph.value x (List.zipWith (· + ·) starts (List.zipWith (· * ·) idx strides))

section Padding

variable {ds es is : List ℕ}

/-- The padding at the ends, which `pad_tensor` computes. -/
def missing (ds es : List ℕ) : List ℕ := List.zipWith (fun d e => e - d) ds es

theorem missing_eq (h : Forall₂ (· ≤ ·) ds es) (hlt : ∀ e ∈ es, e < 2 ^ 63) :
    zipWith (fun actualDim bucketedDim => toInt64 (bucketedDim - actualDim))
      (ds.map Nat.cast) (es.map Nat.cast) = (missing ds es).map Nat.cast := by
  unfold missing
  induction h with
  | nil => rfl
  | @cons d e ds es hde _ ih =>
    have he := hlt e (mem_cons_self ..)
    rw [map_cons, map_cons, zipWith_cons_cons, zipWith_cons_cons,
      map_cons, ih fun x hx => hlt x (mem_cons_of_mem _ hx), ← Nat.cast_sub hde,
      toInt64_natCast (by omega)]

theorem zipWith_zeros (is : List ℕ) :
    zipWith (· + ·) (replicate is.length 0) is = is := by
  induction is with
  | nil => rfl
  | cons i is ih => simpa [replicate_succ] using ih

theorem zipWith_ones (is : List ℕ) :
    zipWith (· * ·) is (replicate is.length 1) = is := by
  induction is with
  | nil => rfl
  | cons i is ih => simpa [replicate_succ] using ih

theorem add_missing (h : Forall₂ (· ≤ ·) ds es) :
    zipWith (· + ·) ds (missing ds es) = es := by
  unfold missing
  induction h with
  | nil => rfl
  | cons hde _ ih => simp [ih, Nat.add_sub_cancel' hde]

theorem sliced_dims (ds : List ℕ) :
    zipWith (fun n stride => (n + stride - 1) / stride)
      (zipWith (· - ·) ds (replicate ds.length 0)) (replicate ds.length 1) = ds := by
  induction ds with
  | nil => rfl
  | cons d ds ih => simpa [replicate_succ] using ih

theorem fitsBucket_natCast (h : Forall₂ (· ≤ ·) ds es) :
    fitsBucket (ds.map Nat.cast) (es.map Nat.cast) = true := by
  unfold fitsBucket
  induction h with
  | nil => rfl
  | cons hde _ ih => simpa [hde] using ih

theorem eq_of_not_differs {s t : MNShape} (hlen : s.length = t.length)
    (h : ¬ differs s t = true) : s = t := by
  unfold differs at h
  induction s generalizing t with
  | nil =>
    cases t with
    | nil => rfl
    | cons e t => simp at hlen
  | cons d s ih =>
    cases t with
    | nil => simp at hlen
    | cons e t =>
      simp only [zip_cons_cons, any_cons, Bool.or_eq_true, not_or] at h
      rw [ih (by simpa using hlen) h.2]
      simpa using h.1

end Padding

variable {graph : MPSGraph τ α}

/-- Slicing undoes padding, to any shape that is not smaller. -/
theorem slice_pad (hgraph : graph.Documented) {x : τ} {es : List ℕ}
    (hle : Forall₂ (· ≤ ·) (graph.shape x) es) (hlt : ∀ e ∈ es, e < 2 ^ 63) :
    ∃ padded y, padTensor graph x ((graph.shape x).map Nat.cast) (es.map Nat.cast) = .ok padded ∧
      graph.shape padded = es ∧
      sliceTensor graph padded (es.map Nat.cast) ((graph.shape x).map Nat.cast) = .ok y ∧
      graph.shape y = graph.shape x ∧
      ∀ idx, Within (graph.shape x) idx → graph.value y idx = graph.value x idx := by
  have hlen : (graph.shape x).length = es.length := hle.length_eq
  have hfits := fitsBucket_natCast hle
  unfold padTensor sliceTensor mnCheck
  simp only [length_map, hlen, hfits, if_true]
  by_cases hdiffers : differs ((graph.shape x).map Nat.cast) (es.map Nat.cast) = true
  · simp only [hdiffers, if_true]
    rw [missing_eq hle hlt]
    have hnum : ∀ n : ℕ, (replicate es.length (n : ℤ))
        = (replicate es.length n).map Nat.cast := by simp
    have hright : (missing (graph.shape x) es).length = (graph.shape x).length := by
      simp [missing, hlen]
    have hzeros : (replicate es.length 0).length = (graph.shape x).length := by simp [hlen]
    have hshape := hgraph.pad_shape x _ _ 0 hzeros hright
    have hvalue := hgraph.pad_value x _ _ 0 hzeros hright
    rw [add_missing hle, zipWith_zeros, ← hnum 0, Nat.cast_zero] at hshape
    rw [← hnum 0, Nat.cast_zero] at hvalue
    generalize graph.padTensor x _ _ 0 = padded at hshape hvalue ⊢
    -- the whole of each dimension is read, element by element
    have hstarts : Forall₂ (· ≤ ·) (replicate es.length 0) (graph.shape x) := by
      rw [← hlen, forall₂_iff_get]
      refine ⟨by simp, fun i _ _ => by simp⟩
    have hends : Forall₂ (· ≤ ·) (graph.shape x) (graph.shape padded) := hshape ▸ hle
    have hstrides : (replicate es.length 1).length = (graph.shape padded).length := by
      simp [hshape]
    have hpos : ∀ n ∈ replicate es.length 1, 0 < n := by
      intro n hn
      rw [eq_of_mem_replicate hn]
      exact Nat.one_pos
    have hsliced := hgraph.slice_shape padded _ _ _ hstarts hends hstrides hpos
    have hread := hgraph.slice_value padded _ _ _ hstarts hends hstrides hpos
    rw [← hnum 0, ← hnum 1, Nat.cast_zero, Nat.cast_one] at hsliced hread
    have hdims := sliced_dims (graph.shape x)
    rw [hlen] at hdims
    rw [hdims] at hsliced
    refine ⟨padded, _, rfl, hshape, rfl, hsliced, fun idx hidx => ?_⟩
    have hidxlen : idx.length = es.length := (Strided.Within.length_eq hidx).trans hlen
    rw [hread idx (by rw [hsliced]; exact hidx), ← hidxlen, zipWith_ones, zipWith_zeros]
    have hsame := hvalue idx hidx
    rwa [← hidxlen, zipWith_zeros] at hsame
  · have hsame := eq_of_not_differs (by simpa using hlen) hdiffers
    simp only [Bool.not_eq_true] at hdiffers
    simp only [hdiffers, Bool.false_eq_true, if_false]
    refine ⟨x, x, rfl, ?_, rfl, rfl, fun idx _ => rfl⟩
    exact map_injective_iff.mpr Nat.cast_injective hsame

/-- **Shape bucketing**: a bucketed shape has the same rank, is not smaller in any dimension and
    keeps those that are not positive; bucketing is monotone and idempotent, and changes exactly the
    shapes that need it.  A tensor that is padded to the bucketed shape and sliced back is the
    tensor. -/
theorem bucketing_laws {s s' : MNShape} (hs : s.IsInt64s) (hs' : s'.IsInt64s)
    (hgraph : graph.Documented) (x : τ) :
    (bucketShape s).length = s.length ∧ (bucketShape s).IsInt64s ∧
    (∀ (i : ℕ) (d : ℤ), s[i]? = some d → d ≤ 0 → (bucketShape s)[i]? = some d) ∧
    List.Forall₂ (· ≤ ·) s (bucketShape s) ∧
    (List.Forall₂ (· ≤ ·) s s' → List.Forall₂ (· ≤ ·) (bucketShape s) (bucketShape s')) ∧
    bucketShape (bucketShape s) = bucketShape s ∧
    (needsBucketing s = true ↔ bucketShape s ≠ s) ∧
    ((∀ d ∈ s, 0 ≤ d) → graph.shape x = s.bounds →
      ∃ padded y, padTensor graph x s (bucketShape s) = .ok padded ∧
        graph.shape padded = (bucketShape s).bounds ∧
        sliceTensor graph padded (bucketShape s) s = .ok y ∧ graph.shape y = graph.shape x ∧
        ∀ idx, Within (graph.shape x) idx → graph.value y idx = graph.value x idx) := by
  have hle := le_bucketShape hs
  refine ⟨?_, isInt64s_bucketShape hs, ?_, hle, bucketShape_mono hs hs', bucketShape_idem hs,
    needsBucketing_iff hs, ?_⟩
  · simp [bucketShape]
  · intro i d hd hneg
    simp [bucketShape, hd, hneg]
  · intro hnonneg hx
    -- none of the dimensions is negative
    have hbucketed : ∀ d ∈ bucketShape s, 0 ≤ d := by
      rw [bucketShape_eq hs]
      intro d hd
      obtain ⟨e, he, rfl⟩ := mem_map.mp hd
      exact (hnonneg e he).trans (bucketDim_spec e).1
    have hcast : (graph.shape x).map Nat.cast = s := by
      rw [hx]
      exact (MNShape.eq_map_bounds hnonneg).symm
    have hcast' : (bucketShape s).bounds.map Nat.cast = bucketShape s :=
      (MNShape.eq_map_bounds hbucketed).symm
    have hbounds : Forall₂ (· ≤ ·) (graph.shape x) (bucketShape s).bounds := by
      rw [hx, MNShape.bounds, MNShape.bounds, forall₂_map_left_iff,
        forall₂_map_right_iff]
      exact hle.imp fun d e hde => Int.toNat_le_toNat hde
    have hlt : ∀ e ∈ (bucketShape s).bounds, e < 2 ^ 63 := by
      intro e he
      obtain ⟨d, hd, rfl⟩ := mem_map.mp he
      have := (isInt64s_bucketShape hs d hd).2
      omega
    have hback := slice_pad hgraph hbounds hlt
    rwa [hcast, hcast'] at hback

/-! ### A run -/

/-- An array of natural numbers. -/
structure NatArray where
  shape : List ℕ
  value : List ℕ → ℕ

/-- Padding and slicing of arrays. -/
def natArrays : MPSGraph NatArray ℕ where
  shape := NatArray.shape
  value := NatArray.value
  padTensor x left right c :=
    { shape := List.zipWith (· + ·) (left.map Int.toNat)
        (List.zipWith (· + ·) x.shape (right.map Int.toNat))
      value := fun idx =>
        let source := List.zipWith (· - ·) idx (left.map Int.toNat)
        if (List.zipWith (fun i l => decide (l ≤ i)) idx (left.map Int.toNat)).all id &&
            (List.zipWith (fun i d => decide (i < d)) source x.shape).all id then x.value source
        else c }
  sliceTensor x starts ends strides :=
    { shape := List.zipWith (fun n stride => (n + stride - 1) / stride)
        (List.zipWith (· - ·) (ends.map Int.toNat) (starts.map Int.toNat)) (strides.map Int.toNat)
      value := fun idx => x.value (List.zipWith (· + ·) (starts.map Int.toNat)
        (List.zipWith (· * ·) idx (strides.map Int.toNat))) }

theorem map_toNat_natCast (l : List ℕ) : (l.map Nat.cast : List ℤ).map Int.toNat = l := by
  simp [Function.comp_def]

theorem natArrays_inside {left ds idx : List ℕ} (hleft : left.length = ds.length)
    (hidx : Within ds idx) :
    zipWith (· - ·) (zipWith (· + ·) left idx) left = idx ∧
      (zipWith (fun i l => decide (l ≤ i)) (zipWith (· + ·) left idx) left).all id =
        true ∧
      (zipWith (fun i d => decide (i < d)) idx ds).all id = true := by
  induction ds generalizing left idx with
  | nil =>
    cases idx with
    | nil => simp
    | cons i idx => exact hidx.elim
  | cons d ds ih =>
    cases idx with
    | nil => exact hidx.elim
    | cons i idx =>
      cases left with
      | nil => simp at hleft
      | cons l left =>
        obtain ⟨hsub, hle, hlt⟩ := ih (by simpa using hleft) hidx.2
        have hi : i < d := hidx.1
        simp only [zipWith_cons_cons, hsub, all_cons, hle, hlt]
        simp [hi]

theorem documented_natArrays : natArrays.Documented where
  pad_shape := by
    intro x left right c _ _
    simp only [natArrays, map_toNat_natCast]
  pad_value := by
    intro x left right c hleft _ idx hidx
    obtain ⟨hsub, hle, hlt⟩ := natArrays_inside hleft hidx
    simp only [natArrays, map_toNat_natCast, hsub, hle]
    exact if_pos hlt
  slice_shape := by
    intro x starts ends strides _ _ _ _
    simp only [natArrays, map_toNat_natCast]
  slice_value := by
    intro x starts ends strides _ _ _ _ idx _
    simp only [natArrays, map_toNat_natCast]

/-- A batch of three rows of thirty-three columns is padded to `32` rows of `48`. -/
theorem bucketing_laws_batch :
    bucketShape [3, 33, -1] = [32, 48, -1] ∧
      ∃ padded y, padTensor natArrays ⟨[3, 33], List.sum⟩ [3, 33] [32, 48] = .ok padded ∧
        padded.shape = [32, 48] ∧ sliceTensor natArrays padded [32, 48] [3, 33] = .ok y ∧
        y.shape = [3, 33] ∧ ∀ idx, Within [3, 33] idx → y.value idx = idx.sum := by
  refine ⟨by decide, ?_⟩
  have hshape : MNShape.IsInt64s [3, 33] := by
    unfold MNShape.IsInt64s
    decide
  have hlaws := bucketing_laws hshape hshape documented_natArrays ⟨[3, 33], sum⟩
  have hbucket : bucketShape [3, 33] = [32, 48] := by decide
  rw [hbucket] at hlaws
  exact hlaws.2.2.2.2.2.2.2 (by decide) rfl

end MetalNative
