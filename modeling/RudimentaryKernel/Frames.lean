import Mathlib.Data.List.Induction
import Mathlib.Order.Bounds.Defs
import RudimentaryKernel.Paging

/-! The frame allocator of `paging.cpp` along whole histories of `frame_alloc` and
`frame_free`: the bits of `frame_bitmap` are the frames handed out and not freed since. -/
namespace RudimentaryKernel

def IsFrame (f : Nat) : Prop := frameStart ≤ f ∧ f < frameEnd ∧ f % pageSize = 0

def FrameContains (f a : Nat) : Prop := f ≤ a ∧ a < f + pageSize

instance (f a : Nat) : Decidable (FrameContains f a) := inferInstanceAs (Decidable (_ ∧ _))

def frameIndex (f : Nat) : Nat := (f - frameStart) / pageSize

theorem IsFrame.address {f : Nat} (frame : IsFrame f) : frameStart + frameIndex f * pageSize = f := by
  simp only [IsFrame,frameIndex,frameStart,frameEnd,pageSize] at frame ⊢
  omega

theorem IsFrame.index_lt {f : Nat} (frame : IsFrame f) : frameIndex f < frameCount := by
  simp only [IsFrame,frameIndex,frameCount,frameStart,frameEnd,pageSize] at frame ⊢
  omega

theorem isFrame_address {i : Nat} (inside : i < frameCount) : IsFrame (frameStart + i * pageSize) := by
  simp only [IsFrame,frameCount,frameStart,frameEnd,pageSize] at inside ⊢
  omega

@[simp] theorem frameIndex_address (i : Nat) : frameIndex (frameStart + i * pageSize) = i := by
  rw [frameIndex,Nat.add_sub_cancel_left,Nat.mul_div_cancel _ (by decide)]

theorem IsFrame.contains_iff {f a : Nat} (frame : IsFrame f) (low : frameStart ≤ a) :
    frameIndex a = frameIndex f ↔ FrameContains f a := by
  simp only [IsFrame,FrameContains,frameIndex,frameStart,frameEnd,pageSize] at frame low ⊢
  omega

namespace Paging

variable {L : Layout}

def frameFree (s : Paging L) (paddr : Nat) : Paging L :=
  if paddr < frameStart ∨ frameEnd ≤ paddr then s
  else { s with frameBitmap := bitmapUnmark s.frameBitmap ((paddr - frameStart) / pageSize) }

def frameTaken (s : Paging L) (f : Nat) : Bool := bitmapGet s.frameBitmap (frameIndex f)

theorem frameAlloc_cases (s : Paging L) :
    s.frameAlloc.2 = 0 ∧ s.frameAlloc.1.frameBitmap = s.frameBitmap ∧ (∀ f, IsFrame f → s.frameTaken f = true) ∨
    IsLeast {f | IsFrame f ∧ s.frameTaken f = false} s.frameAlloc.2 ∧
      s.frameAlloc.1.frameBitmap = bitmapMark s.frameBitmap (frameIndex s.frameAlloc.2) := by
  rcases s.frameAlloc_outcome with ⟨same,full⟩ | ⟨i,inside,same,clear,below⟩
  · rw [same]
    exact .inl ⟨rfl,rfl,fun f frame => full _ frame.index_lt⟩
  · rw [same]
    refine .inr ⟨⟨⟨isFrame_address inside,by simpa [frameTaken] using clear⟩,?_⟩,by simp⟩
    rintro f ⟨frame,free⟩
    by_contra lower
    have before : frameIndex f < i := by
      have address := frame.address
      simp only [pageSize] at address lower
      omega
    simp [frameTaken,below _ before] at free

/-- `frame_free` clears the bit of the frame the address is in, and no other. -/
theorem frameFree_taken (s : Paging L) (a : Nat) {f : Nat} (frame : IsFrame f) :
    (s.frameFree a).frameTaken f = true ↔ s.frameTaken f = true ∧ ¬FrameContains f a := by
  unfold frameFree
  split
  · rename_i outside
    have apart : ¬FrameContains f a := by
      simp only [IsFrame,FrameContains,frameStart,frameEnd,pageSize] at frame outside ⊢
      omega
    simp [apart]
  · rename_i inside
    rw [← frame.contains_iff (by omega)]
    simp only [frameTaken,frameIndex,bitmapGet_unmark]
    simp [and_comm]

/-- Freeing what was just allocated gives the bitmap back, byte for byte. -/
theorem frameFree_frameAlloc (s : Paging L) :
    (s.frameAlloc.1.frameFree s.frameAlloc.2).frameBitmap = s.frameBitmap := by
  rcases s.frameAlloc_cases with ⟨zero,same,_⟩ | ⟨⟨⟨frame,clear⟩,_⟩,marked⟩
  · rw [zero,frameFree,if_pos (.inl (by decide)),same]
  · obtain ⟨low,high,_⟩ := frame
    have inside : ¬(s.frameAlloc.2 < frameStart ∨ frameEnd ≤ s.frameAlloc.2) := by omega
    rw [frameFree,if_neg inside]
    simp only [marked]
    exact bitmapUnmark_mark clear

end Paging

inductive FrameOp where
  | alloc
  | free (paddr : Nat)

/-- The allocator together with the frames that are outstanding: allocated, and no address
in them freed since. -/
structure FrameRun (L : Layout) where
  paging : Paging L
  outstanding : List Nat

namespace FrameRun

variable {L : Layout}

def perform (r : FrameRun L) : FrameOp → FrameRun L
  | .alloc =>
    let (paging,paddr) := r.paging.frameAlloc
    ⟨paging,if paddr = 0 then r.outstanding else paddr :: r.outstanding⟩
  | .free paddr =>
    ⟨r.paging.frameFree paddr,r.outstanding.filter (fun f => ¬FrameContains f paddr)⟩

def run (s : Paging L) (ops : List FrameOp) : FrameRun L :=
  ops.foldl perform ⟨{ s with frameBitmap := fun _ => 0 },[]⟩

/-- The bits say what is outstanding. -/
structure Exact (r : FrameRun L) : Prop where
  frames : ∀ f ∈ r.outstanding, IsFrame f
  taken : ∀ f, IsFrame f → (r.paging.frameTaken f = true ↔ f ∈ r.outstanding)
  distinct : r.outstanding.Nodup

variable {r : FrameRun L}

theorem Exact.alloc (exact' : r.Exact) : (r.perform .alloc).Exact := by
  rcases r.paging.frameAlloc_cases with ⟨zero,same,_⟩ | ⟨⟨⟨frame,clear⟩,_⟩,marked⟩
  · simp only [perform,zero,if_true]
    refine ⟨exact'.frames,fun f frame => ?_,exact'.distinct⟩
    simpa only [Paging.frameTaken,same] using exact'.taken f frame
  · have nonzero : r.paging.frameAlloc.2 ≠ 0 := by
      intro zero
      simp only [zero,IsFrame,frameStart] at frame
      omega
    have fresh : r.paging.frameAlloc.2 ∉ r.outstanding := by
      intro member
      rw [(exact'.taken _ frame).mpr member] at clear
      cases clear
    simp only [perform,if_neg nonzero]
    refine ⟨?_,fun f frame' => ?_,List.nodup_cons.mpr ⟨fresh,exact'.distinct⟩⟩
    · simpa [frame] using exact'.frames
    · have index : frameIndex r.paging.frameAlloc.2 = frameIndex f ↔ f = r.paging.frameAlloc.2 := by
        constructor
        · intro same
          rw [← frame.address,← frame'.address,same]
        · rintro rfl
          rfl
      have old := exact'.taken f frame'
      simp only [Paging.frameTaken] at old
      simp [Paging.frameTaken,marked,index,old]

theorem Exact.free (exact' : r.Exact) (a : Nat) : (r.perform (.free a)).Exact := by
  refine ⟨fun f member => ?_,fun f frame => ?_,exact'.distinct.filter _⟩
  · exact exact'.frames f (List.mem_filter.mp member).1
  · simp [perform,r.paging.frameFree_taken a frame,exact'.taken f frame]

theorem run_exact (s : Paging L) (ops : List FrameOp) : (run s ops).Exact := by
  unfold run
  induction ops using List.reverseRecOn with
  | nil =>
    refine ⟨by simp,fun f _ => ?_,List.nodup_nil⟩
    simp [Paging.frameTaken,bitmapGet]
  | append_singleton ops op ih =>
    rw [List.foldl_append]
    cases op with
    | alloc => exact ih.alloc
    | free a => exact ih.free a

/-- After every history `frame_alloc` gives 0 exactly when all frames are outstanding and
otherwise the lowest frame that is not; outstanding frames are distinct; `frame_free` gives
up the frame its address is in, and nothing outside of the frames; and freeing what was
just allocated restores the bitmap. -/
theorem frame_allocator_exact (s : Paging L) (ops : List FrameOp) :
    let r := run s ops
    (r.paging.frameAlloc.2 = 0 ↔ ∀ f, IsFrame f → f ∈ r.outstanding) ∧
    (r.paging.frameAlloc.2 ≠ 0 → IsLeast {f | IsFrame f ∧ f ∉ r.outstanding} r.paging.frameAlloc.2) ∧
    r.outstanding.Nodup ∧
    (∀ f, IsFrame f → (r.paging.frameTaken f = true ↔ f ∈ r.outstanding)) ∧
    (∀ a f, IsFrame f → ((r.paging.frameFree a).frameTaken f = true ↔
      r.paging.frameTaken f = true ∧ ¬FrameContains f a)) ∧
    (∀ a, ¬(frameStart ≤ a ∧ a < frameEnd) → r.paging.frameFree a = r.paging) ∧
    (r.paging.frameAlloc.1.frameFree r.paging.frameAlloc.2).frameBitmap = r.paging.frameBitmap := by
  intro r
  have exact' : r.Exact := run_exact s ops
  have bit : ∀ f, IsFrame f → (r.paging.frameTaken f = false ↔ f ∉ r.outstanding) := by
    intro f frame
    rw [← exact'.taken f frame,Bool.not_eq_true]
  have least : r.paging.frameAlloc.2 ≠ 0 →
      IsLeast {f | IsFrame f ∧ f ∉ r.outstanding} r.paging.frameAlloc.2 := by
    intro nonzero
    rcases r.paging.frameAlloc_cases with ⟨zero,_,_⟩ | ⟨⟨⟨frame,clear⟩,lowest⟩,_⟩
    · exact absurd zero nonzero
    · refine ⟨⟨frame,(bit _ frame).mp clear⟩,?_⟩
      rintro f ⟨frame,free⟩
      exact lowest ⟨frame,(bit f frame).mpr free⟩
  refine ⟨⟨fun zero f frame => ?_,fun all => ?_⟩,least,exact'.distinct,exact'.taken,
    fun a f => r.paging.frameFree_taken a,fun a outside => ?_,r.paging.frameFree_frameAlloc⟩
  · rcases r.paging.frameAlloc_cases with ⟨_,_,full⟩ | ⟨⟨⟨frame',_⟩,_⟩,_⟩
    · exact (exact'.taken f frame).mp (full f frame)
    · simp only [zero,IsFrame,frameStart] at frame'
      omega
  · by_contra nonzero
    obtain ⟨⟨frame,free⟩,_⟩ := least nonzero
    exact free (all _ frame)
  · rw [Paging.frameFree,if_pos (by omega)]

end FrameRun

end RudimentaryKernel
