import CratonVM.Gc.OldGen.FreeList

/-!
What the bucket operations do to the blocks they hold, seen as one list up to order, and what
the searches promise about the block they pick.
-/
namespace CratonVM.Gc
open Spans List Option Bool Prod

/-- Every block is in the class of its size and below its bucket's bound. -/
structure BucketsOk (buckets : List Bucket) : Prop where
  length : buckets.length = numBuckets
  homed : ∀ i, ∀ b ∈ (bucketAt buckets i).blocks, bucketFor b.size = i
  bounded : ∀ i, ∀ b ∈ (bucketAt buckets i).blocks, b.size ≤ (bucketAt buckets i).sizeBound

theorem bucketFor_lt (size : Nat) : bucketFor size < numBuckets := by
  have h : numBuckets = 112 := by decide
  simp only [bucketFor]
  split <;> omega

variable {i : Nat} {buckets : List Bucket}

theorem bucketAt_modify (hi : i < buckets.length)
    (f : Bucket → Bucket) (j : Nat) :
    bucketAt (buckets.modify i f) j = if j = i then f (bucketAt buckets i) else bucketAt buckets j := by
  by_cases hj : j = i
  · subst hj
    simp [bucketAt,List.getD,getElem?_eq_getElem hi]
  · simp [bucketAt,List.getD,Ne.symm hj,hj]

variable {blocks : List FreeBlock}

theorem mem_swapRemove {b : FreeBlock}
    (h : b ∈ swapRemove blocks i) : b ∈ blocks := by
  unfold swapRemove at h
  split at h
  · simp at h
  rename_i last hlast
  have hmem := mem_of_mem_dropLast h
  rcases mem_or_eq_of_mem_set hmem with hb | rfl
  · exact hb
  · exact mem_of_getLast? hlast

theorem perm_swapRemove (hi : i < blocks.length) :
    blocks.Perm (blocks[i] :: swapRemove blocks i) := by
  rcases eq_nil_or_concat blocks with rfl | ⟨init,last,rfl⟩
  · simp at hi
  simp only [concat_eq_append] at hi ⊢
  have hlast : (init ++ [last]).getLast? = some last := by simp
  unfold swapRemove
  rw [hlast]
  simp only
  by_cases hend : i < init.length
  · rw [set_append_left _ _ hend,dropLast_concat,getElem_append_left hend]
    refine perm_append_comm.trans ?_
    have hset : (last :: init).Perm (init[i] :: init.set i last) := by
      have h1 : init.Perm (init[i] :: init.eraseIdx i) :=
        (getElem_cons_eraseIdx_perm hend).symm
      have h2 : (init.set i last).Perm (last :: init.eraseIdx i) :=
        set_perm_cons_eraseIdx hend last
      exact ((h1.cons last).trans (List.Perm.swap _ _ _)).trans (h2.symm.cons _)
    exact hset
  have heq : i = init.length := by
    rw [length_append,length_singleton] at hi; omega
  subst heq
  have hset : (init ++ [last]).set init.length last = init ++ [last] := by
    simp
  rw [hset,dropLast_concat]
  simp

theorem flatMap_modify (hi : i < buckets.length)
    (f : Bucket → Bucket) : ∃ rest,
      (buckets.flatMap Bucket.blocks).Perm ((bucketAt buckets i).blocks ++ rest) ∧
      ((buckets.modify i f).flatMap Bucket.blocks).Perm ((f (bucketAt buckets i)).blocks ++ rest) := by
  have hat : bucketAt buckets i = buckets[i] := by
    simp [bucketAt,List.getD,getElem?_eq_getElem hi]
  have hsplit : buckets = buckets.take i ++ buckets[i] :: buckets.drop (i+1) := by
    rw [← drop_eq_getElem_cons hi,take_append_drop]
  have hmod : buckets.modify i f = buckets.take i ++ f buckets[i] :: buckets.drop (i+1) :=
    modify_eq_take_cons_drop hi
  refine ⟨(buckets.take i).flatMap Bucket.blocks ++ (buckets.drop (i+1)).flatMap Bucket.blocks,?_,?_⟩
  · have heq : buckets.flatMap Bucket.blocks = (buckets.take i).flatMap Bucket.blocks ++
        (buckets[i].blocks ++ (buckets.drop (i+1)).flatMap Bucket.blocks) := by
      conv_lhs => rw [hsplit]
      rw [flatMap_append,flatMap_cons]
    rw [heq,hat]
    exact perm_append_comm_assoc _ _ _
  rw [hmod,flatMap_append,flatMap_cons,hat]
  exact perm_append_comm_assoc _ _ _

theorem BucketsOk.modify (h : BucketsOk buckets)
    (hi : i < numBuckets) {f : Bucket → Bucket}
    (hf : ∀ b ∈ (f (bucketAt buckets i)).blocks,
      bucketFor b.size = i ∧ b.size ≤ (f (bucketAt buckets i)).sizeBound) :
    BucketsOk (buckets.modify i f) := by
  have hlen : i < buckets.length := by rw [h.length]; exact hi
  refine ⟨by rw [length_modify]; exact h.length,?_,?_⟩
  · intro j b hb
    rw [bucketAt_modify hlen] at hb
    by_cases hj : j = i
    · rw [if_pos hj] at hb; rw [(hf b hb).1,hj]
    · rw [if_neg hj] at hb; exact h.homed j b hb
  intro j b hb
  rw [bucketAt_modify hlen] at hb ⊢
  by_cases hj : j = i
  · rw [if_pos hj] at hb ⊢; exact (hf b hb).2
  · rw [if_neg hj] at hb ⊢; exact h.bounded j b hb

namespace OldGen
variable {g : OldGen}

theorem pushBlock_buckets (h : BucketsOk g.buckets) (block : FreeBlock) :
    BucketsOk (g.pushBlock block).buckets ∧
      (g.pushBlock block).blocks.Perm (block :: g.blocks) := by
  have hi := bucketFor_lt block.size
  refine ⟨h.modify hi ?_,?_⟩
  · intro b hb
    simp only [Bucket.push,mem_append,mem_singleton] at hb ⊢
    rcases hb with hb | rfl
    · exact ⟨h.homed _ b hb,Nat.le_trans (h.bounded _ b hb) (Nat.le_max_left _ _)⟩
    · exact ⟨rfl,Nat.le_max_right _ _⟩
  obtain ⟨rest,h1,h2⟩ := flatMap_modify (by rw [h.length]; exact hi) fun b => b.push block
  refine h2.trans ?_
  simp only [Bucket.push,append_assoc]
  refine (perm_append_comm_assoc _ [block] rest).trans ?_
  exact (h1.symm.cons block)

theorem foldl_pushBlock (h : BucketsOk g.buckets) (merged : List FreeBlock) :
    BucketsOk (merged.foldl pushBlock g).buckets ∧
      (merged.foldl pushBlock g).blocks.Perm (merged ++ g.blocks) := by
  induction merged generalizing g with
  | nil => exact ⟨h,List.Perm.refl _⟩
  | cons b merged ih =>
    obtain ⟨h1,h2⟩ := pushBlock_buckets h b
    obtain ⟨h3,h4⟩ := ih h1
    refine ⟨h3,h4.trans ?_⟩
    exact (h2.append_left merged).trans (perm_middle)

theorem foldl_pushBlock_frame (merged : List FreeBlock) :
    merged.foldl pushBlock g = { g with buckets := (merged.foldl pushBlock g).buckets } := by
  induction merged generalizing g with
  | nil => rfl
  | cons b merged ih =>
    rw [foldl_cons,ih]
    rfl

end OldGen

def Fits (base size align : Nat) (blocks : List FreeBlock) (i : Nat) : Prop :=
  ∃ b, blocks[i]? = some b ∧ padding base align b+size ≤ b.size

structure ScanOk (base size align : Nat) (blocks : List FreeBlock) (i : Nat)
    (l : ScanLocals) : Prop where
  best : ∀ j w, l.best = some (j,w) → Fits base size align blocks j
  largest : ∀ j b, j < i → blocks[j]? = some b → b.size ≤ l.largestSeen

def ScanAnswer (base size align : Nat) (blocks : List FreeBlock) : BucketScan → Prop
  | .fit i => Fits base size align blocks i
  | .noFit largest => ∀ b ∈ blocks, b.size ≤ largest
  | .deferred resume largest => ∀ j b, j < resume → blocks[j]? = some b → b.size ≤ largest

variable {base size align : Nat}

theorem ScanOk.fit_result {j w : Nat}
    {l : ScanLocals} (h : ScanOk base size align blocks i l) (hb : l.best = some (j,w)) :
    ScanAnswer base size align blocks l.result := by
  simp only [ScanLocals.result,hb,ScanAnswer]
  exact h.best j w hb

theorem bestFitLoop_spec {mayDefer : Bool}
    (rest : List FreeBlock) (i : Nat) (l : ScanLocals) (hrest : blocks.drop i = rest)
    (h : ScanOk base size align blocks i l) :
    ScanAnswer base size align blocks (bestFitLoop base size align mayDefer rest i l) := by
  induction rest generalizing i l with
  | nil =>
    have hlen := drop_eq_nil_iff.mp hrest
    simp only [bestFitLoop]
    cases hb : l.best with
    | some best =>
      exact h.fit_result hb
    | none =>
      simp only [ScanLocals.result,hb,ScanAnswer]
      intro b hmem
      obtain ⟨j,hj,hget⟩ := getElem_of_mem hmem
      exact h.largest j b (by omega) (by rw [getElem?_eq_getElem hj,hget])
  | cons block rest ih => ?_
  have hat : blocks[i]? = some block := by
    have := congrArg head? hrest
    simpa using this
  have hnext : blocks.drop (i+1) = rest := by
    rw [drop_add_one_eq_tail_drop,hrest,tail_cons]
  have hlargest : ∀ j b, j < i+1 → blocks[j]? = some b →
      b.size ≤ max l.largestSeen block.size := by
    intro j b hj hb
    rcases Nat.lt_succ_iff_lt_or_eq.mp hj with hj | rfl
    · exact Nat.le_trans (h.largest j b hj hb) (Nat.le_max_left _ _)
    rw [hat] at hb
    obtain rfl := some.inj hb
    exact Nat.le_max_right _ _
  simp only [bestFitLoop]
  by_cases hfit : padding base align block+size ≤ block.size
  · rw [if_pos hfit]
    have hfits : Fits base size align blocks i := ⟨block,hat,hfit⟩
    -- Whichever of the two candidates is kept, it fits.
    have hok : ∀ n m w, ScanOk base size align blocks (i+1)
        ⟨some (i,w),n,m,max l.largestSeen block.size⟩ := by
      intro n m w
      refine ⟨?_,hlargest⟩
      intro j w' hj
      obtain ⟨rfl,_⟩ := mk.inj (some.inj hj)
      exact hfits
    cases hb : l.best with
    | none =>
      simp only [if_true,Bool.true_and]
      split
      · exact (hok _ _ _).fit_result rfl
      split
      · exact (hok _ _ _).fit_result rfl
      · exact ih _ _ hnext (hok _ _ _)
    | some best => ?_
    obtain ⟨j,w⟩ := best
    have hkeep : ∀ n m, ScanOk base size align blocks (i+1)
        ⟨some (j,w),n,m,max l.largestSeen block.size⟩ := by
      intro n m
      exact ⟨by rw [← hb]; exact h.best,hlargest⟩
    by_cases hw : block.size-(padding base align block+size) < w
    · simp only [hw,decide_true,if_true,Bool.true_and]
      split
      · exact (hok _ _ _).fit_result rfl
      split
      · exact (hok _ _ _).fit_result rfl
      · exact ih _ _ hnext (hok _ _ _)
    simp only [hw,decide_false,false_eq_true,if_false,Bool.false_and]
    split
    · exact (hkeep _ _).fit_result rfl
    · exact ih _ _ hnext (hkeep _ _)
  · rw [if_neg hfit]
    split
    · exact hlargest
    · exact ih _ _ hnext ⟨h.best,hlargest⟩

theorem bestFitInBucket_spec {start largestBefore : Nat} {mayDefer : Bool}
    {bucket : Bucket}
    (h : ∀ j b, j < start → bucket.blocks[j]? = some b → b.size ≤ largestBefore) :
    ScanAnswer base size align bucket.blocks
      (bestFitInBucket base bucket start largestBefore size align mayDefer) :=
  bestFitLoop_spec _ _ _ rfl ⟨by simp,h⟩

/-- Two bucket lists that differ in their bounds only. -/
def SameBlocks (a b : List Bucket) : Prop :=
  a.length = b.length ∧ ∀ i, (bucketAt a i).blocks = (bucketAt b i).blocks

theorem SameBlocks.flatMap {a b : List Bucket} (h : SameBlocks a b) :
    a.flatMap Bucket.blocks = b.flatMap Bucket.blocks := by
  obtain ⟨hlen,hat⟩ := h
  have hmap : a.map Bucket.blocks = b.map Bucket.blocks := by
    apply ext_getElem (by simpa using hlen)
    intro i h1 h2
    have := hat i
    rw [length_map] at h1 h2
    simpa [bucketAt,getElem?_eq_getElem h1,getElem?_eq_getElem h2] using this
  rw [flatMap_def,flatMap_def,hmap]

theorem SameBlocks.tighten (buckets : List Bucket) (hi : i < buckets.length)
    (largest : Nat) : SameBlocks (buckets.modify i fun b => b.tighten largest) buckets := by
  refine ⟨length_modify _ _ _,?_⟩
  intro j
  rw [bucketAt_modify hi]
  by_cases hj : j = i
  · rw [if_pos hj,hj]; rfl
  · rw [if_neg hj]

theorem BucketsOk.tighten (h : BucketsOk buckets) {largest : Nat}
    (hi : i < numBuckets) (hl : ∀ b ∈ (bucketAt buckets i).blocks, b.size ≤ largest) :
    BucketsOk (buckets.modify i fun b => b.tighten largest) := by
  apply h.modify hi
  intro b hb
  exact ⟨h.homed i b hb,hl b hb⟩

/-- What the bucket walk returns: the same blocks under valid bounds, and a fitting block. -/
structure SearchOk (base size align : Nat) (buckets : List Bucket)
    (out : Option (Nat × Nat) × List Bucket) : Prop where
  ok : BucketsOk out.2
  same : SameBlocks out.2 buckets
  fits : ∀ idx i, out.1 = some (idx,i) →
    idx < numBuckets ∧ Fits base size align (bucketAt buckets idx).blocks i

theorem searchBuckets_spec (n idx : Nat)
    (deferred : Option (Nat × Nat × Nat)) (used : Bool) (buckets : List Bucket)
    (h : BucketsOk buckets) (hn : idx+n ≤ numBuckets)
    (hd : ∀ k resume largest, deferred = some (k,resume,largest) → k < numBuckets ∧
      ∀ j b, j < resume → (bucketAt buckets k).blocks[j]? = some b → b.size ≤ largest) :
    SearchOk base size align buckets
      (searchBuckets base size align n idx deferred used buckets) := by
  induction n generalizing idx deferred used buckets with
  | zero =>
    cases deferred with
    | none => exact ⟨h,⟨rfl,fun _ => rfl⟩,by intro idx i hx; cases hx⟩
    | some d => ?_
    obtain ⟨k,resume,largest⟩ := d
    obtain ⟨hk,hpre⟩ := hd k resume largest rfl
    have hans : ScanAnswer base size align _
        (bestFitInBucket base (bucketAt buckets k) resume largest size align false) :=
      bestFitInBucket_spec hpre
    simp only [searchBuckets]
    cases hscan : bestFitInBucket base (bucketAt buckets k) resume largest size align false with
    | fit i => ?_
    | noFit largest =>
      rw [hscan] at hans
      exact ⟨h.tighten hk hans,SameBlocks.tighten _ (by rw [h.length]; exact hk) _,
        by intro idx i hx; cases hx⟩
    | deferred resume largest => exact ⟨h,⟨rfl,fun _ => rfl⟩,by intro idx i hx; cases hx⟩
    rw [hscan] at hans
    refine ⟨h,⟨rfl,fun _ => rfl⟩,?_⟩
    intro idx' i' hx
    obtain ⟨rfl,rfl⟩ := mk.inj (some.inj hx)
    exact ⟨hk,hans⟩
  | succ n ih => ?_
  have hidx : idx < numBuckets := by omega
  simp only [searchBuckets]
  split
  · exact ih (idx+1) deferred used buckets h (by omega) hd
  have hans : ScanAnswer base size align _
      (bestFitInBucket base (bucketAt buckets idx) 0 0 size align (!used)) :=
    bestFitInBucket_spec (by omega)
  cases hscan : bestFitInBucket base (bucketAt buckets idx) 0 0 size align (!used) with
  | fit i =>
    rw [hscan] at hans
    refine ⟨h,⟨rfl,fun _ => rfl⟩,?_⟩
    intro idx' i' hx
    obtain ⟨rfl,rfl⟩ := mk.inj (some.inj hx)
    exact ⟨hidx,hans⟩
  | noFit largest => ?_
  | deferred resume largest =>
    rw [hscan] at hans
    refine ih (idx+1) _ true buckets h (by omega) ?_
    intro k resume' largest' hx
    obtain ⟨rfl,hrest'⟩ := mk.inj (some.inj hx)
    obtain ⟨rfl,rfl⟩ := mk.inj hrest'
    exact ⟨hidx,hans⟩
  rw [hscan] at hans
  have hlen : idx < buckets.length := by rw [h.length]; exact hidx
  have hsame := SameBlocks.tighten buckets hlen largest
  have hrec := ih (idx+1) deferred used (buckets.modify idx fun b => b.tighten largest)
    (h.tighten hidx hans) (by omega) (by
      intro k resume largest' hx
      obtain ⟨h1,h2⟩ := hd k resume largest' hx
      exact ⟨h1,by rw [hsame.2 k]; exact h2⟩)
  refine ⟨hrec.ok,⟨hrec.same.1.trans hsame.1,fun j => (hrec.same.2 j).trans (hsame.2 j)⟩,?_⟩
  intro idx' i' hx
  rw [← hsame.2 idx']
  exact hrec.fits idx' i' hx

/-- The carve that `alloc_from_top_scan` picked lies at the end of a block that is there. -/
def TopOk (base size align : Nat) (buckets : List Bucket) (best : Option (Nat × Nat × Nat)) : Prop :=
  ∀ idx i off, best = some (idx,i,off) → idx < numBuckets ∧
    ∃ b, (bucketAt buckets idx).blocks[i]? = some b ∧
      OldGen.topCarve base size align b = some off

theorem topInBucket_spec {idx : Nat}
    (hidx : idx < numBuckets) (rest : List FreeBlock) (i : Nat)
    (hrest : (bucketAt buckets idx).blocks.drop i = rest) (best : Option (Nat × Nat × Nat))
    (h : TopOk base size align buckets best) :
    TopOk base size align buckets (OldGen.topInBucket base size align idx rest i best) := by
  induction rest generalizing i best with
  | nil => exact h
  | cons b rest ih => ?_
  have hat : (bucketAt buckets idx).blocks[i]? = some b := by
    have := congrArg head? hrest
    simpa using this
  have hnext : (bucketAt buckets idx).blocks.drop (i+1) = rest := by
    rw [drop_add_one_eq_tail_drop,hrest,tail_cons]
  simp only [OldGen.topInBucket]
  cases hcarve : OldGen.topCarve base size align b with
  | none => exact ih _ hnext _ h
  | some off => ?_
  have hnew : TopOk base size align buckets (some (idx,i,off)) := by
    intro idx' i' off' hx
    obtain ⟨rfl,hrest'⟩ := mk.inj (some.inj hx)
    obtain ⟨rfl,rfl⟩ := mk.inj hrest'
    exact ⟨hidx,b,hat,hcarve⟩
  refine ih _ hnext _ ?_
  cases best with
  | none => exact hnew
  | some best =>
    simp only
    split
    · exact hnew
    · exact h

theorem topSearch_spec (n idx : Nat)
    (hn : idx+n ≤ numBuckets) (best : Option (Nat × Nat × Nat))
    (h : TopOk base size align buckets best) :
    TopOk base size align buckets (OldGen.topSearch base size align buckets n idx best) := by
  induction n generalizing idx best with
  | zero => exact h
  | succ n ih =>
    simp only [OldGen.topSearch]
    split
    · exact ih (idx+1) (by omega) best h
    · exact ih (idx+1) (by omega) _ (topInBucket_spec (by omega) _ 0 rfl best h)

end CratonVM.Gc
