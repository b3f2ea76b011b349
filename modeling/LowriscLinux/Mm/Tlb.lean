import LowriscLinux.Mm.AddressSpace

/-!
# Translations that harts keep

Model of what keeps the translations of user pages right that the harts remember. A hart may at any
time remember a present entry that it finds in its page table, and goes on using it.

## What models what

* The page tables and the harts are those of `Mm/AddressSpace.lean`; a step there is a step here,
  and `kept` says what it leaves of the translations: `switch_mm`
  (`arch/riscv/include/asm/mmu_context.h`, lines 26-33) flushes all those of its hart (line 31),
  unless it stays at its map.
* `Call`: the flushes of `arch/riscv/include/asm/tlbflush.h`, `flush_tlb_all`, `flush_tlb_page` and
  `flush_tlb_range` (lines 32-35) and `flush_tlb_mm` (lines 40-43). `flush_tlb_kernel_range` is
  `flush_tlb_all` once more. Without `CONFIG_SMP` (lines 24-26) there is one hart, which flushes as
  much.
* `Flush`: a call under way. It is a call of the machine mode, which has each hart execute
  `sfence.vm` before it comes back, in any order and while everything else goes on.
* `RangeFence`: `sbi_remote_sfence_vm_range` gets a start and a size, and flushes at least the pages
  of that range. What it flushes besides is left open.

Translations are kept by page number; there are no address space numbers. The write of `sptbr` and
the fence after it (lines 30 and 31) are one step of `switch_mm`: nothing in between uses a user
address.

Results:
* `tlb_step`, `Fresh.step`: where a translation comes from, and what stays right.
* **`tlb_isolated`**: a hart uses no translation but those that its own map has had.
* **`tlb_flushed`**: when a flush comes back, no hart has a translation of its pages from before.
-/

namespace LowriscLinux.Mm.Tlb

open Kernel Lib AddressSpace
open Vmalloc (pageShift)

variable {w : Xlen} {K H : Type}

/-- The number of the page of an address. -/
def vpn (addr : Word w) : Word w := addr >>> pageShift

/-- What `sbi_remote_sfence_vm_range` flushes, by start, size and page number. -/
structure RangeFence (w : Xlen) where
  covers : Word w → Word w → Word w → Bool
  covers_of_mem : ∀ start size addr : Word w, (addr - start).toNat < size.toNat →
    covers start size (vpn addr) = true

/-- The flushes, but `flush_tlb_kernel_range`, which is `flush_tlb_all` as well. -/
inductive Call (w : Xlen)
  | flushTlbAll
  | flushTlbMm
  | flushTlbRange (start stop : Word w)
  | flushTlbPage (addr : Word w)
  deriving DecidableEq

/-- The pages whose translations a call flushes. -/
def Call.covers (range : RangeFence w) : Call w → Word w → Bool
  | flushTlbAll => fun _ => true
  | flushTlbMm => fun _ => true
  | flushTlbRange start stop => range.covers start (stop - start)
  | flushTlbPage addr => range.covers addr (addr + 1 - addr)

/-- The addresses that a call is for. -/
def Call.For : Call w → Word w → Prop
  | flushTlbAll, _ => True
  | flushTlbMm, _ => True
  | flushTlbRange start stop, addr => (addr - start).toNat < (stop - start).toNat
  | flushTlbPage page, addr => SamePage page addr

/-- A call under way, with the harts that have not fenced for it. -/
structure Flush (w : Xlen) (H : Type) where
  covers : Word w → Bool
  todo : H → Bool

/-- The page tables and the harts, with the translations that each hart keeps and the flush that it
is in. -/
structure State (w : Xlen) (K H : Type) where
  os : AddressSpace.State w K H
  tlb : H → Word w → Option (Word w)
  flush : H → Option (Flush w H)

/-- No hart keeps anything. -/
def State.init (os : AddressSpace.State w K H) : State w K H where
  os := os
  tlb _ _ := none
  flush _ := none

inductive Act (w : Xlen) (K H : Type)
  | os (a : AddressSpace.Act w K H)
  /-- A hart remembers the entry of an address. -/
  | fill (h : H) (addr : Word w)
  | flush (c : H) (call : Call w)
  /-- `sfence.vm` on the hart `h`, for the call of `c`. -/
  | fence (c h : H)
  | flushed (c : H)
  deriving DecidableEq

namespace State

variable [DecidableEq K] [DecidableEq H] [Fintype H] (range : RangeFence w) (s : State w K H)

/-- The entry that a hart finds in its page table. -/
def found (h : H) (addr : Word w) : Word w :=
  entry s.os.tables (s.os.tables.pfnToVirt (s.os.sptbr h)) addr

/-- What a step of the memory manager leaves of the translations: `switch_mm` calls
`local_flush_tlb_all`. -/
def kept : AddressSpace.Act w K H → H → Word w → Option (Word w)
  | .switchMm h next =>
    if s.os.current h ≠ next then Function.update s.tlb h fun _ => none else s.tlb
  | _ => s.tlb

def step : Act w K H → Option (State w K H)
  | .os a => do
    let os ← s.os.step a
    some { s with os, tlb := s.kept a }
  | .fill h addr =>
    if User addr ∧ ptePresent (s.found h addr) then
      some { s with
        tlb := Function.update s.tlb h
          (Function.update (s.tlb h) (vpn addr) (some (s.found h addr))) }
    else none
  | .flush c call =>
    if (s.flush c).isNone then
      some { s with flush := Function.update s.flush c (some ⟨call.covers range, fun _ => true⟩) }
    else none
  | .fence c h => do
    let f ← s.flush c
    some { s with
      tlb := Function.update s.tlb h fun page => if f.covers page then none else s.tlb h page
      flush := Function.update s.flush c
        (some { f with todo := Function.update f.todo h false }) }
  | .flushed c => do
    let f ← s.flush c
    if ∀ h, f.todo h = false then some { s with flush := Function.update s.flush c none } else none

end State

/-- One step of a run. -/
def Step [DecidableEq K] [DecidableEq H] [Fintype H] (range : RangeFence w) (s : State w K H)
    (a : Act w K H) (s' : State w K H) : Prop := s.step range a = some s'

section Steps

variable [DecidableEq K] [DecidableEq H] [Fintype H] {range : RangeFence w} {s s' : State w K H}
  {a : Act w K H} {h c : H} {k : K} {addr page e : Word w}

omit [Fintype H] in
/-- A step of the memory manager leaves translations out, and adds none. -/
theorem kept_sub {b : AddressSpace.Act w K H} (ht : s.kept b h page = some e) :
    s.tlb h page = some e := by
  cases b with
  | switchMm hart next =>
    simp only [State.kept] at ht
    split_ifs at ht
    · by_cases hh : h = hart
      · rw [hh, Function.update_self] at ht
        cases ht
      · rwa [Function.update_of_ne hh] at ht
    · exact ht
  | _ => exact ht

/-- A hart keeps translations only of the map that it had. -/
theorem current_of_kept {os : AddressSpace.State w K H} {b : AddressSpace.Act w K H}
    (hs : s.os.step b = some os) (hcurrent : os.current h = some k)
    (ht : s.kept b h page = some e) : s.os.current h = some k := by
  rcases current_step hs with heq | ⟨hart, next, rfl, hne, heq⟩
  · rwa [heq] at hcurrent
  · rw [heq] at hcurrent
    by_cases hh : h = hart
    · simp only [State.kept, if_pos hne, hh, Function.update_self] at ht
      cases ht
    · rwa [Function.update_of_ne hh] at hcurrent

/-- **Where a translation comes from**: the hart had it before, with the same map, or has just found
it in its page table. -/
theorem tlb_step (hs : Step range s a s') (hcurrent : s'.os.current h = some k)
    (ht : s'.tlb h page = some e) :
    (s.os.current h = some k ∧ s.tlb h page = some e) ∨
      (s'.os = s.os ∧ ∃ addr, User addr ∧ page = vpn addr ∧ e = s.found h addr ∧ ptePresent e) := by
  cases a with
  | os b =>
    simp only [Step, State.step, Option.bind_eq_bind, Option.bind_eq_some_iff,
      Option.some.injEq] at hs
    obtain ⟨os, hos, rfl⟩ := hs
    exact .inl ⟨current_of_kept hos hcurrent ht, kept_sub ht⟩
  | fill hart addr =>
    obtain ⟨⟨ha, hpres⟩, rfl⟩ := Option.ite_none_right_eq_some.mp hs |>.imp_right Option.some.inj
    dsimp only at ht
    by_cases hh : h = hart
    · subst hh
      rw [Function.update_self] at ht
      by_cases hp : page = vpn addr
      · subst hp
        rw [Function.update_self] at ht
        obtain rfl := Option.some.inj ht
        exact .inr ⟨rfl, addr, ha, rfl, rfl, hpres⟩
      · rw [Function.update_of_ne hp] at ht
        exact .inl ⟨hcurrent, ht⟩
    · rw [Function.update_of_ne hh] at ht
      exact .inl ⟨hcurrent, ht⟩
  | flush c' call =>
    obtain ⟨-, rfl⟩ := Option.ite_none_right_eq_some.mp hs |>.imp_right Option.some.inj
    exact .inl ⟨hcurrent, ht⟩
  | fence c' hart =>
    simp only [Step, State.step, Option.bind_eq_bind, Option.bind_eq_some_iff,
      Option.some.injEq] at hs
    obtain ⟨f, -, rfl⟩ := hs
    dsimp only at ht
    by_cases hh : h = hart
    · subst hh
      rw [Function.update_self] at ht
      split_ifs at ht
      exact .inl ⟨hcurrent, ht⟩
    · rw [Function.update_of_ne hh] at ht
      exact .inl ⟨hcurrent, ht⟩
  | flushed c' =>
    simp only [Step, State.step, Option.bind_eq_bind, Option.bind_eq_some_iff] at hs
    obtain ⟨f, -, hs⟩ := hs
    obtain ⟨-, rfl⟩ := Option.ite_none_right_eq_some.mp hs |>.imp_right Option.some.inj
    exact .inl ⟨hcurrent, ht⟩

/-- What a step does to the page tables. -/
theorem os_step (hs : Step range s a s') :
    (∃ b, a = .os b ∧ s.os.step b = some s'.os) ∨ ((∀ b, a ≠ .os b) ∧ s'.os = s.os) := by
  cases a with
  | os b =>
    simp only [Step, State.step, Option.bind_eq_bind, Option.bind_eq_some_iff,
      Option.some.injEq] at hs
    obtain ⟨os, hos, rfl⟩ := hs
    exact .inl ⟨b, rfl, hos⟩
  | fill hart addr | flush c' call =>
    obtain ⟨-, rfl⟩ := Option.ite_none_right_eq_some.mp hs |>.imp_right Option.some.inj
    exact .inr ⟨fun b hb => (by cases hb), rfl⟩
  | fence c' hart =>
    simp only [Step, State.step, Option.bind_eq_bind, Option.bind_eq_some_iff,
      Option.some.injEq] at hs
    obtain ⟨f, -, rfl⟩ := hs
    exact .inr ⟨fun b hb => (by cases hb), rfl⟩
  | flushed c' =>
    simp only [Step, State.step, Option.bind_eq_bind, Option.bind_eq_some_iff] at hs
    obtain ⟨f, -, hs⟩ := hs
    obtain ⟨-, rfl⟩ := Option.ite_none_right_eq_some.mp hs |>.imp_right Option.some.inj
    exact .inr ⟨fun b hb => (by cases hb), rfl⟩

theorem inv_step (h : AddressSpace.Inv s.os) (hs : Step range s a s') : AddressSpace.Inv s'.os := by
  rcases os_step hs with ⟨b, -, hos⟩ | ⟨-, heq⟩
  · exact (h.step hos).1
  · rwa [heq]

/-! ## A hart uses its own map -/

/-- The translation `e` of the page is of the map `k`, from a state of the run since which the hart
has had the map. -/
def Own (s : State w K H) (run : List (Act w K H × State w K H)) (h : H) (k : K)
    (page e : Word w) : Prop :=
  ∃ before after, run = before ++ after ∧
    Always (fun s' => s'.os.current h = some k) (lastState s before) after ∧
    ∃ addr, User addr ∧ page = vpn addr ∧ ptePresent e ∧
      (lastState s before).os.view k addr = e

omit [DecidableEq K] [DecidableEq H] [Fintype H] in
theorem Own.concat {run : List (Act w K H × State w K H)} (h : Own s run c k page e)
    (hcurrent : s'.os.current c = some k) : Own s (run ++ [(a, s')]) c k page e := by
  obtain ⟨before, after, rfl, halways, hentry⟩ := h
  refine ⟨before, after ++ [(a, s')], List.append_assoc .., ⟨halways.1, fun x hx => ?_⟩, hentry⟩
  rcases List.mem_append.mp hx with hx | hx
  · exact halways.2 x hx
  · rw [List.mem_singleton.mp hx]
    exact hcurrent

/-- **A hart uses no translation but those that its own map has had** since the hart has it: what it
keeps is an entry that was in this map, with harts going from map to map and back and entries, tables
and maps being changed all the time. -/
theorem tlb_isolated {os : AddressSpace.State w K H} (hboot : Boot os)
    {run : List (Act w K H × State w K H)} (hrun : IsRun (Step range) (.init os) run)
    (hcurrent : (lastState (.init os) run).os.current h = some k)
    (ht : (lastState (.init os) run).tlb h page = some e) : Own (.init os) run h k page e := by
  induction run using List.reverseRecOn with
  | nil => cases ht
  | append_singleton run step ih =>
    obtain ⟨a, s'⟩ := step
    obtain ⟨hrun, hs, -⟩ := isRun_append.mp hrun
    rw [lastState_append] at hcurrent ht
    rcases tlb_step hs hcurrent ht with ⟨hold, htold⟩ | ⟨hos, addr, ha, hpage, hfound, hpres⟩
    · exact (ih hrun hold htold).concat hcurrent
    · have hinv : AddressSpace.Inv (lastState (.init os) run).os :=
        (hrun.invariant (fun _ _ _ h hs => inv_step h hs)
          (show AddressSpace.Inv (State.init os).os from hboot.inv)).last
      have hview : s'.os.view k addr = e := by
        rw [hfound, State.found, hos]
        have hcurrent' : (lastState (.init os) run).os.current h = some k := by
          rw [← hos]
          exact hcurrent
        exact (hinv.entry_current hcurrent' addr).symm
      refine ⟨run ++ [(a, s')], [], (List.append_nil _).symm, ?_, addr, ha, hpage, hpres, ?_⟩
      · rw [lastState_append]
        exact ⟨hcurrent, fun x hx => by cases hx⟩
      · rw [lastState_append]
        exact hview

/-! ## After a flush -/

/-- A hart keeps no translation of the page but the entry that is there. -/
def Fresh (k : K) (addr : Word w) (s : State w K H) (h : H) : Prop :=
  ∀ e, s.os.current h = some k → s.tlb h (vpn addr) = some e → e = s.os.view k addr

/-- The step does not set the entry of the page. -/
def Act.Leaves (k : K) (addr : Word w) : Act w K H → Prop
  | .os b => b.sets k addr = none
  | _ => True

instance (k : K) (addr : Word w) : ∀ a : Act w K H, Decidable (a.Leaves k addr)
  | .os b => inferInstanceAs (Decidable (b.sets k addr = none))
  | .fill _ _ => .isTrue trivial
  | .flush _ _ => .isTrue trivial
  | .fence _ _ => .isTrue trivial
  | .flushed _ => .isTrue trivial

/-- The hart `c` is in a flush of the page, which the harts without a fence are still to have. -/
def Flushing (c : H) (k : K) (addr : Word w) (s : State w K H) : Prop :=
  ∃ f, s.flush c = some f ∧ f.covers (vpn addr) = true ∧
    ∀ h, f.todo h = false → Fresh k addr s h

theorem view_leaves (hinv : AddressSpace.Inv s.os) (ha : User addr) (hleaves : a.Leaves k addr)
    (hs : Step range s a s') : s'.os.view k addr = s.os.view k addr := by
  rcases os_step hs with ⟨b, rfl, hos⟩ | ⟨-, heq⟩
  · have hspec := (hinv.step hos).2 k addr ha
    rw [hspec, spec, show b.sets k addr = none from hleaves, Option.getD_none]
  · rw [heq]

/-- **What is fresh stays so** until the entry is set. -/
theorem Fresh.step (h : Fresh k addr s c) (hinv : AddressSpace.Inv s.os) (ha : User addr)
    (hleaves : a.Leaves k addr) (hs : Step range s a s') : Fresh k addr s' c := by
  intro e hcurrent ht
  rw [view_leaves hinv ha hleaves hs]
  rcases tlb_step hs hcurrent ht with ⟨hold, htold⟩ | ⟨hos, addr', ha', hpage, rfl, -⟩
  · exact h e hold htold
  · rw [hos] at hcurrent
    exact (hinv.entry_current hcurrent addr').trans (view_congr ha' ha hpage.symm)

/-- A step while a flush is under way. -/
theorem Flushing.step (h : Flushing c k addr s) (hinv : AddressSpace.Inv s.os) (ha : User addr)
    (hleaves : a.Leaves k addr) (hs : Step range s a s') :
    (a ≠ .flushed c ∧ Flushing c k addr s') ∨ (a = .flushed c ∧ ∀ h, Fresh k addr s' h) := by
  obtain ⟨f, hf, hcovers, hdone⟩ := h
  have hfresh : ∀ h, f.todo h = false → Fresh k addr s' h := fun h ht =>
    (hdone h ht).step hinv ha hleaves hs
  cases a with
  | os b =>
    refine .inl ⟨fun heq => (by cases heq), f, ?_, hcovers, hfresh⟩
    simp only [Step, State.step, Option.bind_eq_bind, Option.bind_eq_some_iff,
      Option.some.injEq] at hs
    obtain ⟨os, -, rfl⟩ := hs
    exact hf
  | fill hart addr' =>
    refine .inl ⟨fun heq => (by cases heq), f, ?_, hcovers, hfresh⟩
    obtain ⟨-, rfl⟩ := Option.ite_none_right_eq_some.mp hs |>.imp_right Option.some.inj
    exact hf
  | flush c' call =>
    refine .inl ⟨fun heq => (by cases heq), f, ?_, hcovers, hfresh⟩
    obtain ⟨hnone, rfl⟩ := Option.ite_none_right_eq_some.mp hs |>.imp_right Option.some.inj
    refine (Function.update_of_ne ?_ _ _).trans hf
    rintro rfl
    rw [hf] at hnone
    cases hnone
  | fence c' hart =>
    refine .inl ⟨fun heq => (by cases heq), ?_⟩
    simp only [Step, State.step, Option.bind_eq_bind, Option.bind_eq_some_iff,
      Option.some.injEq] at hs
    obtain ⟨f', hf', rfl⟩ := hs
    by_cases hc : c' = c
    · subst hc
      obtain rfl := Option.some.inj (hf.symm.trans hf')
      refine ⟨_, Function.update_self .., hcovers, fun h ht => ?_⟩
      by_cases hh : h = hart
      · subst hh
        intro e _ hte
        dsimp only at hte
        rw [Function.update_self, if_pos hcovers] at hte
        cases hte
      · exact hfresh h ((Function.update_of_ne hh _ _).symm.trans ht)
    · exact ⟨f, (Function.update_of_ne (Ne.symm hc) _ _).trans hf, hcovers, hfresh⟩
  | flushed c' =>
    simp only [Step, State.step, Option.bind_eq_bind, Option.bind_eq_some_iff] at hs
    obtain ⟨f', hf', hs⟩ := hs
    obtain ⟨hall, rfl⟩ := Option.ite_none_right_eq_some.mp hs |>.imp_right Option.some.inj
    by_cases hc : c' = c
    · subst hc
      obtain rfl := Option.some.inj (hf.symm.trans hf')
      exact .inr ⟨rfl, fun h => hfresh h (hall h)⟩
    · refine .inl ⟨fun heq => hc (Act.flushed.inj heq), f, ?_, hcovers, hfresh⟩
      exact (Function.update_of_ne (Ne.symm hc) _ _).trans hf

theorem fresh_run {run : List (Act w K H × State w K H)} (h : ∀ h, Fresh k addr s h)
    (hinv : AddressSpace.Inv s.os) (ha : User addr) (hrun : IsRun (Step range) s run)
    (hleaves : Meets (fun _ a => a.Leaves k addr) s run) :
    ∀ h, Fresh k addr (lastState s run) h := by
  have hstep : ∀ (s : State w K H) a s', AddressSpace.Inv s.os ∧ (∀ h, Fresh k addr s h) →
      a.Leaves k addr → Step range s a s' → AddressSpace.Inv s'.os ∧ ∀ h, Fresh k addr s' h :=
    fun s a s' hh hl hs => ⟨inv_step hh.1 hs, fun h => (hh.2 h).step hh.1 ha hl hs⟩
  exact (hrun.meets_invariant hstep hleaves ⟨hinv, h⟩).last.2

theorem flushing_run {run : List (Act w K H × State w K H)} (h : Flushing c k addr s)
    (hinv : AddressSpace.Inv s.os) (ha : User addr) (hrun : IsRun (Step range) s run)
    (hleaves : Meets (fun _ a => a.Leaves k addr) s run) (hback : ∃ e ∈ run, e.1 = .flushed c) :
    ∀ h, Fresh k addr (lastState s run) h := by
  induction run generalizing s with
  | nil =>
    obtain ⟨e, he, -⟩ := hback
    cases he
  | cons e rest ih =>
    obtain ⟨hs, hrest⟩ := hrun
    obtain ⟨hl, hleaves⟩ := hleaves
    rcases h.step hinv ha hl hs with ⟨hne, hflush⟩ | ⟨-, hfresh⟩
    · refine ih hflush (inv_step hinv hs) hrest hleaves ?_
      obtain ⟨e', he', heq⟩ := hback
      rcases List.mem_cons.mp he' with rfl | he'
      · exact absurd heq hne
      · exact ⟨e', he', heq⟩
    · show ∀ h, Fresh k addr (lastState e.2 rest) h
      exact fresh_run hfresh (inv_step hinv hs) ha hrest hleaves

/-- A call flushes the pages of the addresses that it is for. -/
theorem covers_of_for {call : Call w} (h : call.For addr) :
    call.covers range (vpn addr) = true := by
  cases call with
  | flushTlbAll | flushTlbMm => rfl
  | flushTlbRange start stop => exact range.covers_of_mem start _ addr h
  | flushTlbPage page =>
    have hone : (page - page).toNat < (page + 1 - page).toNat := by
      rw [BitVec.sub_self, BitVec.add_comm, BitVec.add_sub_cancel]
      cases w <;> decide
    have hcovers := range.covers_of_mem page (page + 1 - page) page hone
    rwa [show vpn page = vpn addr from h] at hcovers

/-- **When a flush comes back, no hart has a translation of its pages from before**: if the entry of
a page has not been set since the call of a flush for it, then after the call is back every hart
that has the map keeps nothing for the page but the entry that is in the table. -/
theorem tlb_flushed {os : AddressSpace.State w K H} (hboot : Boot os)
    {run after : List (Act w K H × State w K H)} (hrun : IsRun (Step range) (.init os) run)
    {call : Call w} (hcall : Step range (lastState (.init os) run) (.flush c call) s)
    (hafter : IsRun (Step range) s after) (ha : User addr) (hfor : call.For addr)
    (hleaves : Meets (fun _ a => a.Leaves k addr) s after)
    (hback : ∃ e ∈ after, e.1 = .flushed c) :
    ∀ h e, (lastState s after).os.current h = some k →
      (lastState s after).tlb h (vpn addr) = some e → e = (lastState s after).os.view k addr := by
  have hinv : AddressSpace.Inv (lastState (.init os) run).os :=
    (hrun.invariant (fun _ _ _ h hs => inv_step h hs)
      (show AddressSpace.Inv (State.init os).os from hboot.inv)).last
  have hinv' := inv_step hinv hcall
  have hflush : Flushing c k addr s := by
    obtain ⟨-, rfl⟩ := Option.ite_none_right_eq_some.mp hcall |>.imp_right Option.some.inj
    exact ⟨_, Function.update_self .., covers_of_for hfor, fun h ht => by cases ht⟩
  exact fun h e => flushing_run hflush hinv' ha hafter hleaves hback h e

end Steps

/-- A machine mode that flushes everything. -/
def everything : RangeFence .rv64 where
  covers _ _ _ := true
  covers_of_mem _ _ _ _ := rfl

/-- The one hart remembers an entry, which is then set. -/
def remembered : List (Act .rv64 Bool Bool) :=
  (twoProcesses.take 6).map .os ++ [.fill true 0x1abc, .os (.setPteAt (some true) 0x1000 0x8f)]

theorem tlb_isolated_remembered :
    let run := trace (State.step everything) (.init boot) remembered
    (lastState (.init boot) run).os.view true 0x1abc = 0x8f ∧ Own (.init boot) run true true 1 0x7f :=
  ⟨by decide, tlb_isolated boot_twoProcesses (isRun_trace _ remembered) (by decide) (by decide)⟩

/-- The other hart calls for a flush of the page. -/
def called : State .rv64 Bool Bool :=
  ((lastState (.init boot) (trace (State.step everything) (.init boot) remembered)).step everything
    (.flush false (.flushTlbPage 0x1000))).get rfl

/-- The entry is remembered again before the call is back. -/
def flushing : List (Act .rv64 Bool Bool) :=
  [.fence false true, .fill true 0x1def, .fence false false, .flushed false]

theorem tlb_flushed_flushing :
    let s' := lastState called (trace (State.step everything) called flushing)
    ∀ h e, s'.os.current h = some true → s'.tlb h (vpn 0x1abc) = some e →
      e = s'.os.view true 0x1abc :=
  tlb_flushed boot_twoProcesses (isRun_trace _ remembered) (Option.some_get _).symm
    (isRun_trace _ flushing) (show User (w := .rv64) 0x1abc by decide)
    (show SamePage (w := .rv64) 0x1000 0x1abc by decide) (by decide) (by decide)

end LowriscLinux.Mm.Tlb
