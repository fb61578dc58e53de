import Xv6.Proofs.PageOwners
import Xv6.Spec.Kalloc

/-! The pages that `kalloc` has handed out and those on the free list are all there are, over whole runs. -/

namespace Xv6.Vm.Allocator

open Prog Function

variable {l : Layout} {live : List ℕ} {x : ℕ} {s s' : Allocator} {e : Event}

/-- What the pages are used for when those of `live` are allocated. -/
def pages (l : Layout) (live : List ℕ) : Pages := fun x => if x ∈ live then .held .kernel else bootPages l x

theorem pages_live (h : x ∈ live) : pages l live x = .held .kernel := if_pos h

theorem pages_cons (l : Layout) (live : List ℕ) (x : ℕ) : update (pages l live) x (.held .kernel) = pages l (x :: live) := by
  funext y
  by_cases hy : y = x <;> simp [pages, hy]

theorem pages_erase (hlive : live.Nodup) (hx : l.Contains x) :
    update (pages l live) x .free = pages l (live.erase x) := by
  funext y
  by_cases hy : y = x
  · subst hy
    simp [pages, hlive.not_mem_erase, bootPages, hx]
  · simp [pages, hy, List.mem_erase_of_ne hy]

structure Good (l : Layout) (s : Allocator) : Prop where
  layout : s.vm.layout = l
  enough : s.vm.oom = []
  nodup : s.live.Nodup
  inv : Inv False ∅ (fun _ _ => none) .kernel (pages l s.live) s.vm

theorem good_kinit (l : Layout) (mem : ℕ → PageData) : Good l (kinit l mem) := by
  have hboot : (kinit l mem).vm.layout = l ∧ (kinit l mem).vm.oom = [] := by
    rw [kinit, boot_eq]
    exact ⟨rfl, rfl⟩
  exact ⟨hboot.1, hboot.2, List.nodup_nil, boot_inv l mem⟩

theorem Good.contains (h : Good l s) (hx : x ∈ s.live) : l.Contains x := by
  have hin := h.inv.contains (x := x) (by rw [pages_live hx]; nofun)
  rwa [h.layout] at hin

theorem Good.kfree_live (h : Good l s) (hx : x ∈ s.live) : kfree x s.vm = .ok () (s.vm.push x) := by
  rw [kfree_apply, if_pos]
  rw [h.layout]
  exact h.contains hx

theorem good_step (h : Good l s) (hs : s.step e = some s') : Good l s' := by
  cases e with
  | kalloc =>
    rw [step, kalloc_apply] at hs
    split_ifs at hs with hzero
    · cases hs
      exact ⟨h.layout, congrArg List.tail h.enough, h.nodup, { h.inv with }⟩
    · have hne : s.vm.freelist ≠ 0 := fun h0 => hzero (.inr h0)
      obtain ⟨hfree, hinv⟩ := h.inv.pop hne
      have hnew : s.vm.freelist ∉ s.live := fun hx => by simp [pages_live hx] at hfree
      rw [pages_cons] at hinv
      simp only [if_neg hne] at hs
      cases hs
      exact ⟨h.layout, congrArg List.tail h.enough, List.nodup_cons.mpr ⟨hnew, h.nodup⟩, hinv⟩
  | kfree x =>
    rw [step] at hs
    split_ifs at hs with hx
    have hinv := (kfree_held (pages_live hx)).ok h.inv (h.kfree_live hx)
    rw [h.kfree_live hx] at hs
    cases hs
    rw [pages_erase h.nodup (h.contains hx)] at hinv
    exact ⟨h.layout, h.enough, h.nodup.erase x, hinv⟩
  | store x data =>
    rw [step] at hs
    split_ifs at hs with hx
    cases hs
    exact ⟨h.layout, h.enough, h.nodup, h.inv.setPage (by rw [pages_live hx]; simp [Status.Plain]) data⟩

/-- In every run the free list is finite, it and the allocated pages are the pages of RAM behind the kernel, each once,
`kalloc` fails only if no page is free, and `kfree` of an allocated page does not panic. -/
theorem kalloc_partition (l : Layout) (mem : ℕ → PageData) (es : List Event) (s : Allocator)
    (h : run l mem es = some s) : ∃ L, Chain.Spells (next s.vm.mem) s.vm.freelist L ∧ (L ++ s.live).Nodup ∧
      (∀ x, x ∈ L ++ s.live ↔ l.Contains x) ∧ (∃ r t, kalloc s.vm = .ok r t ∧ (r = 0 → L = [])) ∧
      ∀ x ∈ s.live, ∃ t, kfree x s.vm = .ok () t := by
  have hs : Good l s := System.exec_invariant step (good_kinit l mem) (fun _ _ _ => good_step) es s h
  obtain ⟨L, hspell, hnodup, hL⟩ := hs.inv.list
  refine ⟨L, hspell, List.nodup_append'.mpr ⟨hnodup, hs.nodup, fun x hx hlive => ?_⟩, fun x => ?_, ?_,
    fun x hx => ⟨_, hs.kfree_live hx⟩⟩
  · have hfree := (hL x).mp hx
    rw [pages_live hlive] at hfree
    cases hfree
  · rw [List.mem_append, hL]
    by_cases hx : x ∈ s.live
    · simp [hx, hs.contains hx]
    · simp [pages, bootPages, hx]
  · rw [kalloc_apply, hs.enough]
    split_ifs with hzero
    · refine ⟨_, _, rfl, fun _ => ?_⟩
      rw [hzero.resolve_left (by simp)] at hspell
      cases L with
      | nil => rfl
      | cons x L => exact absurd hspell.1.symm hspell.2.1
    · exact ⟨_, _, rfl, fun h0 => absurd (.inr h0) hzero⟩

/-- Two pages are taken, the first is given back and taken again, and so is a third one. -/
def takeAndGive : List Event := [.kalloc, .kalloc, .kfree 557055, .kalloc, .kalloc]

theorem kalloc_partition_takeAndGive : ∃ s, run smallKernel (fun _ _ => 0) takeAndGive = some s ∧
    s.live = [557053, 557055, 557054] ∧ ∃ L, Chain.Spells (next s.vm.mem) s.vm.freelist L ∧ (L ++ s.live).Nodup ∧
      ∀ x, x ∈ L ++ s.live ↔ smallKernel.Contains x := by
  have hrun : (run smallKernel (fun _ _ => 0) takeAndGive).map live = some [557053, 557055, 557054] := by
    rw [run, kinit, boot_eq]
    decide +kernel
  obtain ⟨s, hs, hlive⟩ := Option.map_eq_some_iff.mp hrun
  obtain ⟨L, hspell, hnodup, hall, -⟩ := kalloc_partition _ _ _ s hs
  exact ⟨s, hs, hlive, L, hspell, hnodup, hall⟩

end Xv6.Vm.Allocator
