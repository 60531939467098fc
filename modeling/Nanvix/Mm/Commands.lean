import Nanvix.Library.Machine
import Nanvix.Mm.AllocSpec
import Nanvix.Mm.LinkSpec

/-!
# The memory manager as a machine

The commands are the routines that user calls and the page-fault handler reach,
over any number of address spaces. `Effect` lists what a command can do to the
entries and to the owners of frames, whether it returns or fails; what a command
keeps is read off from it.

## Implementation notes

A child that pages are linked into is a space without mappings, other than the
parent.
-/
namespace Nanvix.Mm
open Config Library Library.Prog

inductive MemCmd where
  | newVmem
  | allocUpages (space : Nat) (vaddr : PageAligned) (access : AccessPermission) (clear : Bool)
      (nframes : Nat) (uframes : List Nat) (capacity : Nat)
  | linkUserPages (parent child : Nat)
  | resolveCowAt (space : Nat) (vaddr : PageAligned)
  | resolveCowForRegion (space addr size : Nat)
  | tryResolveCowFault (space faultAddr : Nat) (code : MM.FaultCode)
  | uctrl (space : Nat) (vaddr : PageAligned) (access : AccessPermission)
  | unmap (space : Nat) (vaddr : PageAligned)

namespace MemCmd

/-- A command names spaces that exist, and a child to link into is empty. -/
def enabled : MemCmd → MemState → Bool
  | newVmem, _ => true
  | linkUserPages parent child, s =>
    parent != child && (s.spaces parent).isSome &&
      (s.spaces child).any fun vm => vm.userMappings.isEmpty
  | allocUpages i _ _ _ _ _ _, s => (s.spaces i).isSome
  | resolveCowAt i _, s => (s.spaces i).isSome
  | resolveCowForRegion i _ _, s => (s.spaces i).isSome
  | tryResolveCowFault i _ _, s => (s.spaces i).isSome
  | uctrl i _ _, s => (s.spaces i).isSome
  | unmap i _, s => (s.spaces i).isSome

/-- The routine a command runs. -/
def exec : MemCmd → MM Unit
  | newVmem => do let _ ← MM.newVmem
  | allocUpages i v access clear nframes uframes capacity =>
    MM.allocUpages i v access clear nframes uframes capacity
  | linkUserPages parent child => MM.linkUserPages parent child
  | resolveCowAt i v => do let _ ← MM.resolveCowAt i v
  | resolveCowForRegion i addr size => MM.resolveCowForRegion i addr size
  | tryResolveCowFault i addr code => do let _ ← MM.tryResolveCowFault i addr code
  | uctrl i v access => MM.uctrl i v access
  | unmap i v => do let _ ← MM.tryUnmapUpage i v

end MemCmd

def memMachine : Machine MemState Error MemCmd Unit := ⟨MemCmd.enabled, MemCmd.exec⟩

variable {held : List Nat} {s s' : MemState} {i parent child : Nat} {v : PageAligned}
variable {access : AccessPermission} {c : MemCmd}

/-- What a command did to entries and owners. -/
inductive Effect (held : List Nat) (c : MemCmd) (s s' : MemState) : Prop
  | quiet (owners : NoNewOwners s s') (pte : s'.pte = s.pte)
  | allocated {i m : Nat} {v : PageAligned} {access : AccessPermission}
      (done : Allocating held i v m access s s')
  | linked {parent child : Nat} (command : c = .linkUserPages parent child)
      (empty : ∀ w, s.pte child w = none) (done : Linking held parent child s s')
      (pte : s'.pte = MM.linkedPte s.pte parent child)
  | unlinked {parent child : Nat} (command : c = .linkUserPages parent child)
      (done : Unlinked held parent s s')
  | resolved {i : Nat} {s₁ : MemState} (done : MM.ResolveSteps held i s s₁)
      (owners : s'.frames.refcount = s₁.frames.refcount) (pte : s'.pte = s₁.pte)
  | changed {i : Nat} {v : PageAligned} {access : AccessPermission} {p : PageTableEntry}
      (command : c = .uctrl i v access) (entry : s.pte i v = some p)
      (frames : s'.frames = s.frames)
      (pte : s'.pte = setPte s.pte i v (some (p.withAccess false access)))
  | released {i : Nat} {v : PageAligned} {p : PageTableEntry} (command : c = .unmap i v)
      (done : MM.Released held i v p s s')

/-- What holds after a command, whether it returned or failed: the counters are right, no
space is gone and the machine has as many frames as before. -/
structure Performed (held : List Nat) (c : MemCmd) (s s' : MemState) : Prop where
  accounted : Accounted held s'
  effect : Effect held c s s'
  live : ∀ i, (s.spaces i).isSome → (s'.spaces i).isSome
  capacity : s'.frames.capacity = s.frames.capacity

theorem SameSpaces.performed (h : SameSpaces s s') (hacc : Accounted held s')
    (he : Effect held c s s') : Performed held c s s' :=
  ⟨hacc, he, fun i hi => (h.live i).trans hi, h.capacity⟩

/-- A command that did nothing. -/
theorem Performed.refl (h : Accounted held s) : Performed held c s s :=
  (SameSpaces.refl s).performed h (.quiet (.refl s) rfl)

theorem resolveCowAt_performed (h : Accounted held s) (hi : (s.spaces i).isSome) :
    wp (MM.resolveCowAt i v) (fun _ t => Performed held c s t)
      (fun _ t => Performed held c s t) s := by
  obtain ⟨vm, hvm⟩ := Option.isSome_iff_exists.mp hi
  refine (MM.resolveCowAt_wp h hvm).mono ?_ ?_
  · rintro r t (⟨-, rfl, -⟩ | ⟨-, hstep, -⟩)
    · exact .refl h
    · exact hstep.spaces.performed hstep.accounted (.resolved (.single ⟨v, hstep⟩) rfl rfl)
  · rintro e t ⟨hfail, -⟩
    exact hfail.spaces.performed hfail.accounted
      (.resolved (i := i) .refl hfail.owners hfail.pte)

/-- An empty child has no entry. -/
theorem pte_eq_none_of_userMappings
    (h : (s.spaces child).any (fun vm => vm.userMappings.isEmpty) = true) (w : PageAligned) :
    s.pte child w = none := by
  cases hc : s.spaces child with
  | none => simp only [MemState.pte, hc, Option.bind_none]
  | some vm =>
    rw [hc, Option.any_some, List.isEmpty_iff] at h
    rw [Accounted.pte_of_space hc]
    by_contra hne
    obtain ⟨p, hp⟩ := Option.ne_none_iff_exists'.mp hne
    have hmem := Vmem.mem_userMappings.mpr hp
    rw [h] at hmem
    cases hmem

/-- When a link may be called. -/
theorem linkUserPages_enabled (h : memMachine.enabled (.linkUserPages parent child) s = true) :
    parent ≠ child ∧ (s.spaces parent).isSome ∧ (s.spaces child).isSome ∧
      ∀ w, s.pte child w = none := by
  simp only [memMachine, MemCmd.enabled, Bool.and_eq_true, bne_iff_ne] at h
  obtain ⟨⟨hne, hparent⟩, hany⟩ := h
  refine ⟨hne, hparent, ?_, pte_eq_none_of_userMappings hany⟩
  cases hc : s.spaces child with
  | none => rw [hc] at hany; cases hany
  | some vm => rfl

/-- Every command returns or fails with right counters and one of the listed effects. -/
theorem memMachine_performed (c : MemCmd) (h : Accounted held s)
    (henabled : memMachine.enabled c s = true) :
    wp (memMachine.exec c) (fun _ t => Performed held c s t)
      (fun _ t => Performed held c s t) s := by
  cases c with
  | newVmem =>
    change wp (MM.newVmem >>= fun _ => pure ()) _ _ s
    simp only [wp_bind, wp_pure]
    refine (MM.newVmem_wp h).mono ?_ ?_
    · rintro i t ⟨rfl, hacc, hown, -, hpte, ⟨d, hspaces⟩, -, hcap⟩
      refine ⟨hacc, .quiet hown hpte, fun j hj => ?_, hcap⟩
      rw [hspaces, Function.update_apply]
      split_ifs
      · rfl
      · exact hj
    · rintro _ _ ⟨rfl, -⟩
      exact .refl h
  | allocUpages i v access clear nframes uframes capacity =>
    refine (MM.allocUpages_wp h henabled clear nframes capacity uframes).mono ?_ ?_
    · intro _ t ha
      exact ha.spaces.performed ha.accounted (.allocated ha)
    · rintro _ t ⟨w, ha⟩
      exact ha.spaces.performed ha.accounted (.allocated ha)
  | linkUserPages parent child =>
    obtain ⟨hne, hparent, hchild, hempty⟩ := linkUserPages_enabled henabled
    refine (MM.linkUserPages_wp h hne hparent hchild hempty).mono ?_ ?_
    · rintro _ t ⟨hl, hpte⟩
      exact hl.spaces.performed hl.accounted (.linked rfl hempty hl hpte)
    · rintro e t ⟨hu, -⟩
      exact hu.spaces.performed hu.accounted (.unlinked rfl hu)
  | resolveCowAt i v =>
    change wp (MM.resolveCowAt i v >>= fun _ => pure ()) _ _ s
    simp only [wp_bind, wp_pure]
    exact resolveCowAt_performed h henabled
  | resolveCowForRegion i addr size =>
    refine (MM.resolveCowForRegion_wp h henabled).mono ?_ ?_
    · rintro _ t ⟨hs, -⟩
      exact hs.spaces.performed (hs.accounted h) (.resolved hs rfl rfl)
    · rintro e t ⟨s₁, hs, hfail, -⟩
      exact (hs.spaces.trans hfail.spaces).performed hfail.accounted
        (.resolved hs hfail.owners hfail.pte)
  | tryResolveCowFault i addr code =>
    change wp (MM.tryResolveCowFault i addr code >>= fun _ => pure ()) _ _ s
    simp only [MM.tryResolveCowFault, wp_bind, wp_pure, wp_ite]
    split_ifs
    · exact .refl h
    · exact resolveCowAt_performed h henabled
  | uctrl i v access =>
    obtain ⟨vm, hvm⟩ := Option.isSome_iff_exists.mp henabled
    refine (MM.uctrl_wp h hvm).mono ?_ ?_
    · rintro _ t ⟨hacc, hsp, hf, -, q, hq, hpte⟩
      exact hsp.performed hacc (.changed rfl hq hf hpte)
    · rintro e t ⟨hacc, hsp, hf, -, hpte⟩
      exact hsp.performed hacc (.quiet (fun g => hf ▸ Nat.le_max_left _ _) hpte)
  | unmap i v =>
    obtain ⟨vm, hvm⟩ := Option.isSome_iff_exists.mp henabled
    change wp (MM.tryUnmapUpage i v >>= fun _ => pure ()) _ _ s
    simp only [wp_bind, wp_pure]
    refine (MM.tryUnmapUpage_wp h hvm).mono ?_ ?_
    · rintro r t (⟨-, -, rfl⟩ | ⟨-, p, -, hrel⟩)
      · exact .refl h
      · exact hrel.spaces.performed hrel.accounted (.released rfl hrel)
    · rintro _ _ ⟨-, rfl⟩
      exact .refl h

/-- The first page of the user range. -/
def firstUserPage : PageAligned := .alignDown userBase

/-- What every effect keeps, next to right counters, holds along every guarded run. -/
theorem memMachine_invariant {I : MemState → Prop} {guard : MemCmd → MemState → Prop}
    {s₀ : MemState} (h₀ : Accounted held s₀) (hI : I s₀)
    (hkeep : ∀ c s s', Accounted held s → I s → guard c s → Effect held c s s' → I s')
    (h : memMachine.Reach guard s₀ s) : Accounted held s ∧ I s := by
  refine Machine.Reach.invariant (I := fun t => Accounted held t ∧ I t) ⟨h₀, hI⟩ ?_ h
  intro c t ⟨hacc, ht⟩ henabled hguard
  exact (memMachine_performed c hacc henabled).mono
    (fun _ _ hs => ⟨hs.accounted, hkeep c t _ hacc ht hguard hs.effect⟩)
    (fun _ _ hs => ⟨hs.accounted, hkeep c t _ hacc ht hguard hs.effect⟩)

end Nanvix.Mm
