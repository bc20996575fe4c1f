/-
# Mmu.TlbShootdown -- flush_tlb_all and the lazy flush of the scheduler (x64)

`flush_tlb_all` of an application thread leaves a lazy request with every CPU that runs no
application thread and interrupts the others; the scheduler takes the request when it
switches threads.  Each access to a shared word is one step.  The order of these steps is
the point: the flusher sets `lazy_flush_tlb`, looks at `app_thread` and may take the request
back; the scheduler sets `app_thread` and then takes the request.

`flushedSince t c` is not in the code: it says that CPU `c` has flushed its TLB since call
`t` began.
-/
import MiniOsv.Theory.Tally
import MiniOsv.Theory.Transition

namespace MiniOsv.Mmu

open Function

/-! ## The model -/

/-- Where a CPU is: running a thread, or in `reschedule_from_interrupt` on the way to one. -/
inductive CpuMode
  | run (app : Bool)
  /-- The next thread is chosen. -/
  | switching (app : Bool)
  | stored (app : Bool)
  /-- The lazy request, if there was one, is taken. -/
  | taken (app : Bool) (flush : Bool)
  deriving DecidableEq, Repr

/-- The interrupt that asks for a flush: sent, or handled up to the confirmation. -/
inductive FlushIpi
  | none | sent | flushed
  deriving DecidableEq, Repr

structure TlbCpu where
  lazyFlushTlb : Bool
  appThread : Bool
  mode : CpuMode
  ipi : FlushIpi
  deriving DecidableEq, Repr

/-- The place of a call in `flush_tlb_all`. -/
inductive FlushPc (ι : Type)
  | idle
  | flushSelf
  | lock
  /-- `copy_if` over the CPUs that are left. -/
  | scan (left ipis : List ι)
  | loadApp (c : ι) (left ipis : List ι)
  | exchangeLazy (c : ι) (left ipis : List ι)
  | storeCount (ipis : List ι)
  | sendAllButSelf
  | send (left : List ι)
  | wait
  | returned
  deriving DecidableEq, Repr

structure Tlb (ι κ : Type) where
  cpus : ι → TlbCpu
  calls : κ → FlushPc ι
  /-- The CPU of the calling thread, which does not migrate. -/
  home : κ → ι
  tlbFlushMutex : Option κ
  pendingConfirms : ℤ
  flushedSince : κ → ι → Bool

namespace Tlb

variable {ι κ : Type} [DecidableEq ι] [DecidableEq κ]

inductive Action (ι κ : Type)
  | reschedule (c : ι) (app : Bool)
  | schedule (c : ι)
  | interrupt (c : ι)
  | call (t : κ) (c : ι)
  | go (t : κ)
  deriving DecidableEq, Repr

def setCpu (s : Tlb ι κ) (c : ι) (cpu : TlbCpu) : Tlb ι κ :=
  { s with cpus := update s.cpus c cpu }

def setPc (s : Tlb ι κ) (t : κ) (pc : FlushPc ι) : Tlb ι κ :=
  { s with calls := update s.calls t pc }

def flushTlbLocal (s : Tlb ι κ) (c : ι) : Tlb ι κ :=
  { s with flushedSince := fun t d => if d = c then true else s.flushedSince t d }

/-- The end of `reschedule_from_interrupt`. -/
def schedule (s : Tlb ι κ) (c : ι) : Option (Tlb ι κ) :=
  let cpu := s.cpus c
  match cpu.mode with
  | .run _ => none
  | .switching app => some (s.setCpu c { cpu with appThread := app, mode := .stored app })
  | .stored app =>
    some (s.setCpu c { cpu with lazyFlushTlb := false, mode := .taken app cpu.lazyFlushTlb })
  | .taken app flush =>
    let s := s.setCpu c { cpu with mode := .run app }
    some (if flush then s.flushTlbLocal c else s)

/-- `tlb_flush_ipi`; the scheduler runs with interrupts disabled. -/
def interrupt (s : Tlb ι κ) (c : ι) : Option (Tlb ι κ) :=
  let cpu := s.cpus c
  match cpu.mode, cpu.ipi with
  | .run _, .sent => some ((s.setCpu c { cpu with ipi := .flushed }).flushTlbLocal c)
  | .run _, .flushed =>
    some { s.setCpu c { cpu with ipi := .none } with pendingConfirms := s.pendingConfirms - 1 }
  | _, _ => none

def go (cpus : List ι) (isApp : κ → Bool) (s : Tlb ι κ) (t : κ) : Option (Tlb ι κ) :=
  match s.calls t with
  | .idle => none
  | .returned => none
  | .flushSelf =>
    some ((s.flushTlbLocal (s.home t)).setPc t (if cpus.length ≤ 1 then .returned else .lock))
  | .lock =>
    if s.tlbFlushMutex = none then
      some ({ s with tlbFlushMutex := some t }.setPc t
        (if isApp t then .scan cpus [] else .storeCount []))
    else none
  | .scan [] ipis => some (s.setPc t (.storeCount ipis))
  | .scan (c :: left) ipis =>
    if c = s.home t then some (s.setPc t (.scan left ipis))
    else some ((s.setCpu c { s.cpus c with lazyFlushTlb := true }).setPc t (.loadApp c left ipis))
  | .loadApp c left ipis =>
    some (s.setPc t (if (s.cpus c).appThread then .exchangeLazy c left ipis else .scan left ipis))
  | .exchangeLazy c left ipis =>
    some ((s.setCpu c { s.cpus c with lazyFlushTlb := false }).setPc t
      (if (s.cpus c).lazyFlushTlb then .scan left (ipis ++ [c]) else .scan left ipis))
  | .storeCount ipis =>
    let count := if isApp t then ipis.length else cpus.length - 1
    some ({ s with pendingConfirms := count }.setPc t
      (if count = cpus.length - 1 then .sendAllButSelf else .send ipis))
  | .sendAllButSelf =>
    some ({ s with cpus := fun c =>
      if c = s.home t then s.cpus c else { s.cpus c with ipi := .sent } }.setPc t .wait)
  | .send [] => some (s.setPc t .wait)
  | .send (c :: left) => some ((s.setCpu c { s.cpus c with ipi := .sent }).setPc t (.send left))
  | .wait =>
    if s.pendingConfirms = 0 then some ({ s with tlbFlushMutex := none }.setPc t .returned)
    else none

def call (s : Tlb ι κ) (t : κ) (c : ι) : Option (Tlb ι κ) :=
  if s.calls t = .idle ∨ s.calls t = .returned then
    some ({ s with
      home := update s.home t c
      flushedSince := update s.flushedSince t fun _ => false }.setPc t .flushSelf)
  else none

def step (cpus : List ι) (isApp : κ → Bool) (s : Tlb ι κ) : Action ι κ → Option (Tlb ι κ)
  | .reschedule c app =>
    match (s.cpus c).mode with
    | .run _ => some (s.setCpu c { s.cpus c with mode := .switching app })
    | _ => none
  | .schedule c => s.schedule c
  | .interrupt c => s.interrupt c
  | .call t c => s.call t c
  | .go t => s.go cpus isApp t

/-- No call is under way and no CPU has been asked for anything. -/
def Quiet (s : Tlb ι κ) : Prop :=
  (∀ t, s.calls t = .idle) ∧ s.tlbFlushMutex = none ∧
    ∀ c, (s.cpus c).ipi = .none ∧ (s.cpus c).lazyFlushTlb = false ∧
      (s.cpus c).mode = .run (s.cpus c).appThread

end Tlb

end MiniOsv.Mmu
