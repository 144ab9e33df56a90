import Rockos.SyscallEffects

/-!
# Frames over whole runs

What `FrameSafety` shows of the operations that map and unmap pages holds for
whole system calls, whichever way they end, and so for every state of a run of
the booted system.
-/
namespace Rockos.SystemMemory
open FallibleState PhysMemory Paging ElfLoader KernelState AddressSpace ProcessCalls Syscall
open FrameSafety SyscallEffects Runs

theorem takeIrqs_mem (irqs : List Irq) (k : Kernel) : (takeIrqs irqs k).mem = k.mem := by
  obtain ⟨_, _, _, hsame⟩ := takeIrqs_eq irqs k
  rw [hsame]

theorem kernelSafe_of_mem {k k' : Kernel} (h : k'.mem = k.mem) : Keeps KernelSafe k k' := by
  intro hk
  rwa [KernelSafe, h]

theorem allows_kernelSafe : AllowsSwitch (Keeps KernelSafe) where
  mem := allowsBooks_kernelSafe.mem
  free _ _ h := kernelSafe_of_mem (congrArg Prod.fst h)
  own _ _ _ hk := hk
  wait k irqs rest := kernelSafe_of_mem (takeIrqs_mem irqs { k with waits := rest })
  switch _ _ h := kernelSafe_of_mem (congrArg Prod.fst h)
  exit _ _ hk := hk

theorem sysFork_safe (w : Walker) (mem : UInt64 → UInt64) (rsp top : UInt64) :
    Within (Keeps KernelSafe) (sysFork w mem rsp top) := by
  refine within_bind within_get fun k => ?_
  cases allocPid k.procs with
  | none => exact within_pure _
  | some pid =>
      refine within_bind (onMem_safe (within_attempt (mapChildStackAndCopy_safe w _))) fun r => ?_
      cases r with
      | none => exact within_pure _
      | some _ =>
          cases k.current with
          | none => exact within_throw _
          | some parent =>
              refine within_bind within_get fun k => ?_
              cases allocSlot k.procs with
              | none => exact within_throw _
              | some x =>
                  refine within_bind (within_modify _ fun _ hk => hk) fun _ => ?_
                  refine within_bind (within_modify _ fun _ hk => hk) fun _ => ?_
                  refine within_bind (within_modify _ fun _ hk => hk) fun _ => ?_
                  exact within_bind (within_modify _ fun _ hk => hk) fun _ => within_pure _

theorem sysWait4_safe (pid : ℤ) (wstatus : ℕ) :
    Within (Keeps KernelSafe) (sysWait4 pid wstatus) := by
  refine within_bind (within_bind within_get fun k => ?_) fun r => ?_
  · split
    · exact within_pure _
    · exact within_bind (within_modify _ fun _ hk => hk) fun _ => within_pure _
  · split
    · exact within_pure _
    · refine within_ite (within_pure _) (within_bind within_get fun _ => ?_)
      refine within_ite (within_pure _) (within_ite (within_throw _) ?_)
      exact within_bind (onMem_safe (storeBytes_safe _ _)) fun _ => within_pure _

theorem step_safe {cfg : Config} (e : Event) (k : Kernel) (o : Option Resumed) (k' : Kernel)
    (hstep : step cfg e k = some (o, k')) : Keeps KernelSafe k k' :=
  step_within allows_kernelSafe (sysFork_safe cfg.walker) sysWait4_safe hstep

theorem kernelMain_safe (w : Walker) (initElf : List UInt8) :
    Within (Keeps FrameSafe) (kernelMain w initElf) := by
  refine within_bind (heapInit_safe w) fun _ => within_bind (mapUserStack_safe w) fun _ => ?_
  refine within_bind (within_attempt (loadElf_safe w initElf 0)) fun r => ?_
  cases r with
  | some entry => exact modify_safe (fun _ => rfl) fun _ => rfl
  | none =>
      refine within_bind (mapUserBlob_safe w) fun _ => ?_
      refine within_bind (modify_safe (fun _ => rfl) fun _ => rfl) fun _ => ?_
      refine within_bind (modify_safe (fun _ => rfl) fun _ => rfl) fun _ => ?_
      exact modify_safe (fun _ => rfl) fun _ => rfl

/-- The first process is about to run: `kernel_main` has made its mappings, on
memory of which only the tables of the bootloader were in use. -/
def Booted (cfg : Config) (k : Kernel) : Prop :=
  ∃ staleTop boxedTop k₀ k₁, Pristine k₀ ∧
    onMem (kernelMain cfg.walker cfg.initElf) k₀ = .ok () k₁ ∧ k = boot staleTop boxedTop k₁

theorem Booted.safe {cfg : Config} {k : Kernel} (h : Booted cfg k) : KernelSafe k := by
  obtain ⟨staleTop, boxedTop, k₀, k₁, hpristine, hmain, rfl⟩ := h
  have hsafe : KernelSafe k₁ :=
    (onMem_safe (kernelMain_safe cfg.walker cfg.initElf)).ok hmain hpristine.safe
  exact hsafe

theorem Booted.reachable {cfg : Config} {k : Kernel} (h : Booted cfg k) : Reachable cfg k := by
  obtain ⟨staleTop, boxedTop, k₀, k₁, -, -, rfl⟩ := h
  exact ⟨staleTop, boxedTop, k₁, [], .done _⟩

theorem Booted.run_safe {cfg : Config} {k₀ k : Kernel} {tr : List (Event × Option Resumed)}
    (h : Booted cfg k₀) (hrun : Run (step cfg) k₀ tr k) : KernelSafe k :=
  hrun.invariant step_safe h.safe

theorem started_booted : Booted machine started := by
  have hok : (returned (kernelMain flatWalker spinElf (memInit [⟨1, 128, .usable⟩]))).map
      (fun _ => ()) = some () := by decide +kernel
  obtain ⟨_, m, hmain, -⟩ := ok_of_returned hok
  refine ⟨0x10000204000, 0x444444448000, statics (memInit [⟨1, 128, .usable⟩]), statics m,
    ⟨fun _ => rfl, by simp [statics, memInit]⟩, ?_, by rw [started, hmain]; rfl⟩
  have hmem : (statics (memInit [⟨1, 128, .usable⟩])).mem = memInit [⟨1, 128, .usable⟩] := rfl
  rw [onMem, zoom, hmem]
  simp only [machine, hmain]
  rfl

end Rockos.SystemMemory
