/-
# Mmu.TlbContract -- what a returned flush_tlb_all guarantees

A call has covered a CPU when the CPU has flushed since the call began, or, for a call of an
application thread, when the CPU will take a lazy request before it runs an application
thread (`Soft`).  A later flusher that takes a lazy request back takes it from every earlier
call too, and sends its own interrupt only later; `retracted_request_runs_stale` is a run in
which an application thread runs in between.  In runs where no request that an earlier call
relies on is taken back the guarantee holds (`sound_tlbFlushed`).
-/
import MiniOsv.Mmu.TlbShootdown

namespace MiniOsv.Mmu

open Theory List Finset Option FlushPc
open Function (update update_self update_of_ne)

set_option linter.unusedSectionVars false

def FlushPc.critical {ι : Type} : FlushPc ι → Bool
  | .idle | .flushSelf | .lock | .returned => false
  | _ => true

namespace Tlb

variable {ι κ : Type} [DecidableEq ι] [DecidableEq κ] {cpus : List ι} {isApp : κ → Bool}
  {s s' : Tlb ι κ} {t u : κ} {c d : ι}

/-! ## Coverage -/

/-- The CPU runs no application thread before it has taken a request to flush. -/
def Soft (cpu : TlbCpu) : Prop :=
  match cpu.mode with
  | .run app => cpu.lazyFlushTlb = true ∧ app = false
  | .switching _ => cpu.lazyFlushTlb = true
  | .stored _ => cpu.lazyFlushTlb = true
  | .taken app flush => flush = true ∨ cpu.lazyFlushTlb = true ∧ app = false

def Covered (isApp : κ → Bool) (s : Tlb ι κ) (t : κ) (c : ι) : Prop :=
  s.flushedSince t c = true ∨ isApp t = true ∧ Soft (s.cpus c)

/-- The request that the call has just made is still there or has been taken. -/
def Asked (s : Tlb ι κ) (t : κ) (c : ι) : Prop :=
  (s.cpus c).lazyFlushTlb = true ∨ s.flushedSince t c = true ∨
    ∃ app, (s.cpus c).mode = .taken app true

/-- The interrupt is on its way, or the CPU is covered. -/
def Signalled (isApp : κ → Bool) (s : Tlb ι κ) (t : κ) (c : ι) : Prop :=
  (s.cpus c).ipi = .sent ∨ Covered isApp s t c

def CallOk (isApp : κ → Bool) (s : Tlb ι κ) (t : κ) : Prop :=
  match s.calls t with
  | .idle | .flushSelf | .lock | .sendAllButSelf => True
  | .scan left ipis => isApp t = true ∧ (ipis ++ left).Nodup ∧ s.home t ∉ ipis ∧
      ∀ d, d ≠ s.home t → d ∈ left ∨ d ∈ ipis ∨ Covered isApp s t d
  | .loadApp c left ipis | .exchangeLazy c left ipis =>
    isApp t = true ∧ (ipis ++ c :: left).Nodup ∧ s.home t ∉ ipis ∧ c ≠ s.home t ∧ Asked s t c ∧
      ∀ d, d ≠ s.home t → d ∈ c :: left ∨ d ∈ ipis ∨ Covered isApp s t d
  | .storeCount ipis => isApp t = true → ipis.Nodup ∧ s.home t ∉ ipis ∧
      ∀ d, d ≠ s.home t → d ∈ ipis ∨ Covered isApp s t d
  | .send left => left.Nodup ∧ s.home t ∉ left ∧
      ∀ d, d ≠ s.home t → d ∈ left ∨ Signalled isApp s t d
  | .wait => ∀ d, d ≠ s.home t → Signalled isApp s t d
  | .returned => ∀ d, d ≠ s.home t → Covered isApp s t d

/-- What the confirmation counter counts. -/
def unconfirmed (cpu : TlbCpu) : ℕ := if cpu.ipi = .none then 0 else 1

def CountOk [Fintype ι] (cpus : List ι) (s : Tlb ι κ) : FlushPc ι → Prop
  | .sendAllButSelf => s.pendingConfirms = (cpus.length - 1 : ℕ) ∧ ∀ c, (s.cpus c).ipi = .none
  | .send left => s.pendingConfirms = left.length + tally unconfirmed s.cpus ∧
      ∀ c ∈ left, (s.cpus c).ipi = .none
  | .wait => s.pendingConfirms = tally unconfirmed s.cpus
  | _ => ∀ c, (s.cpus c).ipi = .none

structure Inv [Fintype ι] (cpus : List ι) (isApp : κ → Bool) (s : Tlb ι κ) : Prop where
  appMode : ∀ c, (∃ app, (s.cpus c).mode = .switching app) ∨
    (s.cpus c).mode = .run (s.cpus c).appThread ∨ (s.cpus c).mode = .stored (s.cpus c).appThread ∨
      ∃ flush, (s.cpus c).mode = .taken (s.cpus c).appThread flush
  owner : ∀ t, critical (s.calls t) = true ↔ s.tlbFlushMutex = some t
  calls : ∀ t, CallOk isApp s t
  count : ∀ t, s.tlbFlushMutex = some t → CountOk cpus s (s.calls t)
  quiet : s.tlbFlushMutex = none → ∀ c, (s.cpus c).ipi = .none

/-! ## What a step keeps for a call that does not move -/

/-- Nothing a call relies on is lost. -/
structure Keeps (isApp : κ → Bool) (s s' : Tlb ι κ) (t : κ) : Prop where
  pc : s'.calls t = s.calls t
  home : s'.home t = s.home t
  since : ∀ c, s.flushedSince t c = true → s'.flushedSince t c = true
  soft : ∀ c, Covered isApp s t c → Covered isApp s' t c
  asked : ∀ c, c ≠ s.home t → Asked s t c → Asked s' t c
  sent : ∀ c, (s.cpus c).ipi = .sent → Signalled isApp s' t c

theorem Keeps.signalled (keeps : Keeps isApp s s' t) (signalled : Signalled isApp s t c) :
    Signalled isApp s' t c :=
  signalled.elim (keeps.sent c) fun covered => .inr (keeps.soft c covered)

theorem Keeps.callOk (keeps : Keeps isApp s s' t) (ok : CallOk isApp s t) : CallOk isApp s' t := by
  unfold CallOk at *
  rw [keeps.pc, keeps.home]
  cases pc : s.calls t with rw [pc] at ok
  | idle | flushSelf | lock | sendAllButSelf => trivial
  | scan left ipis =>
    obtain ⟨app, nodup, own, cover⟩ := ok
    exact ⟨app, nodup, own, fun d ne => (cover d ne).imp id (Or.imp id (keeps.soft d))⟩
  | loadApp c left ipis | exchangeLazy c left ipis =>
    obtain ⟨app, nodup, own, ne, asked, cover⟩ := ok
    exact ⟨app, nodup, own, ne, keeps.asked c ne asked,
      fun d ne => (cover d ne).imp id (Or.imp id (keeps.soft d))⟩
  | storeCount ipis =>
    intro app
    obtain ⟨nodup, own, cover⟩ := ok app
    exact ⟨nodup, own, fun d ne => (cover d ne).imp id (keeps.soft d)⟩
  | send left =>
    exact ⟨ok.1, ok.2.1, fun d ne => (ok.2.2 d ne).imp id keeps.signalled⟩
  | wait =>
    exact fun d ne => keeps.signalled (ok d ne)
  | returned =>
    exact fun d ne => keeps.soft d (ok d ne)

theorem keeps_of_cpu (pc : s'.calls t = s.calls t) (home : s'.home t = s.home t)
    (others : ∀ d, d ≠ c → s'.cpus d = s.cpus d)
    (since : ∀ d, s.flushedSince t d = true → s'.flushedSince t d = true)
    (soft : Soft (s.cpus c) → Soft (s'.cpus c) ∨ s'.flushedSince t c = true)
    (asked : c ≠ s.home t → Asked s t c → Asked s' t c)
    (sent : (s.cpus c).ipi = .sent → (s'.cpus c).ipi = .sent ∨ s'.flushedSince t c = true) :
    Keeps isApp s s' t := by
  refine ⟨pc, home, since, fun d => ?_, fun d ne => ?_, fun d => ?_⟩
  · by_cases here : d = c
    · subst here
      rintro (flushed | ⟨app, isSoft⟩)
      · exact .inl (since d flushed)
      · exact (soft isSoft).elim (fun isSoft => .inr ⟨app, isSoft⟩) .inl
    · rintro (flushed | isSoft)
      · exact .inl (since d flushed)
      · exact .inr (by rwa [others d here])
  · by_cases here : d = c
    · subst here
      exact asked ne
    · rintro (lazy | flushed | taken)
      · exact .inl (by rwa [others d here])
      · exact .inr (.inl (since d flushed))
      · exact .inr (.inr (by rwa [others d here]))
  · intro isSent
    by_cases here : d = c
    · subst here
      exact (sent isSent).imp id .inl
    · exact .inl (by rwa [others d here])

/-! ## Steps of the CPUs -/

section Steps

variable [Fintype ι]

theorem Inv.cpu (inv : Inv cpus isApp s) {cpu : TlbCpu} (update : s'.cpus = update s.cpus c cpu)
    (mode : (∃ app, cpu.mode = .switching app) ∨ cpu.mode = .run cpu.appThread ∨
      cpu.mode = .stored cpu.appThread ∨ ∃ flush, cpu.mode = .taken cpu.appThread flush)
    (soft : ∀ t, Soft (s.cpus c) → Soft cpu ∨ s'.flushedSince t c = true)
    (asked : ∀ t, Asked s t c → Asked s' t c)
    (since : ∀ t d, s.flushedSince t d = true → s'.flushedSince t d = true := by
      exact fun _ _ => id)
    (sent : ∀ t, (s.cpus c).ipi = .sent → cpu.ipi = .sent ∨ s'.flushedSince t c = true := by
      exact fun _ => .inl)
    (none : (s.cpus c).ipi = .none → cpu.ipi = .none := by exact id)
    (count : s'.pendingConfirms + unconfirmed (s.cpus c) = s.pendingConfirms + unconfirmed cpu := by
      rfl)
    (calls : s'.calls = s.calls := by rfl) (home : s'.home = s.home := by rfl)
    (mutex : s'.tlbFlushMutex = s.tlbFlushMutex := by rfl) : Inv cpus isApp s' := by
  have others : ∀ d, d ≠ c → s'.cpus d = s.cpus d := fun d ne => by
    rw [update, update_of_ne ne]
  have here : s'.cpus c = cpu := by rw [update, update_self]
  have noIpi : ∀ d, (s.cpus d).ipi = .none → (s'.cpus d).ipi = .none := by
    intro d idle
    by_cases same : d = c
    · subst same
      rw [here]
      exact none idle
    · rwa [others d same]
  have total := tally_update unconfirmed s.cpus c cpu
  rw [← update] at total
  refine ⟨fun d => ?_, fun t => ?_, fun t => ?_, fun t holds => ?_, fun free d => ?_⟩
  · by_cases same : d = c
    · subst same
      rw [here]
      exact mode
    · rw [others d same]
      exact inv.appMode d
  · rw [calls, mutex]
    exact inv.owner t
  · refine Keeps.callOk (s := s) ?_ (inv.calls t)
    refine keeps_of_cpu (by rw [calls]) (by rw [home]) others (since t) ?_ (fun _ => asked t) ?_ <;> rw [here]
    · exact soft t
    · exact sent t
  · have ok := inv.count t (mutex ▸ holds)
    rw [calls]
    cases pc : s.calls t with rw [pc] at ok
    | sendAllButSelf =>
      have idle := ok.2 c
      rw [unconfirmed, unconfirmed, if_pos idle, if_pos (none idle)] at count
      exact ⟨by have := ok.1; omega, fun d => noIpi d (ok.2 d)⟩
    | send left =>
      exact ⟨by have := ok.1; omega, fun d mem => noIpi d (ok.2 d mem)⟩
    | wait =>
      have := ok
      simp only [CountOk] at this ⊢
      omega
    | _ =>
      exact fun d => noIpi d (ok d)
  · exact noIpi d (inv.quiet (mutex ▸ free) d)

theorem Asked.cpu {cpu : TlbCpu}
    (lazy : (s.cpus c).lazyFlushTlb = true →
      cpu.lazyFlushTlb = true ∨ ∃ app, cpu.mode = .taken app true)
    (taken : ∀ app, (s.cpus c).mode = .taken app true → cpu.mode = .taken app true)
    (asked : Asked s t c) : Asked (s.setCpu c cpu) t c := by
  simp only [Asked, setCpu, update_self]
  rcases asked with on | flushed | ⟨app, mode⟩
  · exact (lazy on).imp_right .inr
  · exact .inr (.inl flushed)
  · exact .inr (.inr ⟨app, taken app mode⟩)

theorem flushTlbLocal_since (flushed : s.flushedSince t d = true) :
    (s.flushTlbLocal c).flushedSince t d = true := by
  simp only [flushTlbLocal]
  split
  · rfl
  · exact flushed

section

variable (inv : Inv cpus isApp s)

include inv

theorem Inv.appThread {app : Bool}
    (mode : (s.cpus c).mode = .stored app ∨ ∃ flush, (s.cpus c).mode = .taken app flush) :
    (s.cpus c).appThread = app := by
  rcases mode with mode | ⟨flush, mode⟩ <;>
    rcases inv.appMode c with ⟨x, is⟩ | is | is | ⟨x, is⟩ <;> rw [mode] at is <;> cases is <;> rfl

theorem Inv.reschedule {app : Bool}
    (result : s.step cpus isApp (.reschedule c app) = some s') : Inv cpus isApp s' := by
  simp only [step] at result
  cases mode : (s.cpus c).mode <;> rw [mode] at result <;> cases result
  refine inv.cpu rfl (.inl ⟨app, rfl⟩) (fun t isSoft => ?_)
    fun t => Asked.cpu .inl (by simp [mode])
  simp only [Soft, mode] at isSoft ⊢
  exact .inl isSoft.1

attribute [local simp] flushTlbLocal

theorem Inv.schedule (result : s.schedule c = some s') : Inv cpus isApp s' := by
  simp only [Tlb.schedule] at result
  cases mode : (s.cpus c).mode with
  | run app => rw [mode] at result; cases result
  | switching app =>
    rw [mode] at result
    cases result
    refine inv.cpu rfl (.inr (.inr (.inl rfl))) (fun t isSoft => ?_)
      fun t => Asked.cpu .inl (by simp [mode])
    simp only [Soft, mode] at isSoft ⊢
    exact .inl isSoft
  | stored app =>
    rw [mode] at result
    cases result
    refine inv.cpu rfl (.inr (.inr (.inr ⟨_, by rw [inv.appThread (.inl mode)]⟩)))
      (fun t isSoft => ?_) fun t => Asked.cpu (fun lazy => .inr ⟨app, by rw [lazy]⟩) (by simp [mode])
    simp only [Soft, mode] at isSoft ⊢
    exact .inl (.inl isSoft)
  | taken app flush =>
    rw [mode] at result
    have same := inv.appThread (.inr ⟨flush, mode⟩)
    cases flush with cases result
    | true =>
      exact inv.cpu rfl (.inr (.inl (by rw [same]))) (fun t _ => .inr (by simp))
        (fun t _ => .inr (.inl (by simp))) fun t d => flushTlbLocal_since
    | false =>
      refine inv.cpu rfl (.inr (.inl (by rw [same]))) (fun t isSoft => ?_)
        fun t => Asked.cpu .inl (by simp [mode])
      simp only [Soft, mode, Bool.false_eq_true, false_or] at isSoft ⊢
      exact .inl isSoft

theorem Inv.interrupt (result : s.interrupt c = some s') : Inv cpus isApp s' := by
  simp only [Tlb.interrupt] at result
  split at result <;> cases result
  next app mode ipi =>
    refine inv.cpu rfl (inv.appMode c) (fun t _ => .inr ?_) (fun t _ => .inr (.inl ?_))
      (fun t d => flushTlbLocal_since) (fun t _ => .inr ?_) (by simp [ipi]) ?_
    · simp
    · simp
    · simp
    · simp [setCpu, unconfirmed, ipi]
  next app mode ipi =>
    exact inv.cpu rfl (inv.appMode c) (fun t => .inl) (fun t => Asked.cpu .inl fun _ => id)
      (fun _ _ => id) (by simp [ipi]) (fun _ => rfl) (by simp [unconfirmed, ipi])

end

/-! ## Steps of the calls -/

/-- A step that neither moves a CPU in the scheduler nor takes anything from it. -/
structure Calm (s s' : Tlb ι κ) : Prop where
  mode : ∀ c, (s'.cpus c).mode = (s.cpus c).mode ∧ (s'.cpus c).appThread = (s.cpus c).appThread
  lazy : ∀ c, (s.cpus c).lazyFlushTlb = true → (s'.cpus c).lazyFlushTlb = true
  sent : ∀ c, (s.cpus c).ipi = .sent → (s'.cpus c).ipi = .sent

section

variable (calm : Calm s s')

include calm

theorem Calm.soft (isSoft : Soft (s.cpus c)) : Soft (s'.cpus c) := by
  unfold Soft at *
  rw [(calm.mode c).1]
  split at isSoft
  · exact isSoft.imp (calm.lazy c) id
  · exact calm.lazy c isSoft
  · exact calm.lazy c isSoft
  · exact isSoft.imp id (And.imp (calm.lazy c) id)

section

variable (since : ∀ d, s.flushedSince t d = true → s'.flushedSince t d = true)

include since

theorem Calm.covered (covered : Covered isApp s t c) : Covered isApp s' t c :=
  covered.imp (since c) (And.imp id calm.soft)

theorem Calm.asked (asked : Asked s t c) : Asked s' t c := by
  refine asked.imp (calm.lazy c) (Or.imp (since c) ?_)
  rw [(calm.mode c).1]
  exact id

end

theorem Calm.keeps (pc : s'.calls t = s.calls t) (home : s'.home t = s.home t)
    (since : ∀ d, s.flushedSince t d = true → s'.flushedSince t d = true) : Keeps isApp s s' t :=
  ⟨pc, home, since, fun _ => calm.covered since, fun _ _ => calm.asked since,
    fun c isSent => .inl (calm.sent c isSent)⟩

theorem Calm.appMode (inv : Inv cpus isApp s) (c : ι) :
    (∃ app, (s'.cpus c).mode = .switching app) ∨ (s'.cpus c).mode = .run (s'.cpus c).appThread ∨
      (s'.cpus c).mode = .stored (s'.cpus c).appThread ∨
        ∃ flush, (s'.cpus c).mode = .taken (s'.cpus c).appThread flush := by
  rw [(calm.mode c).1, (calm.mode c).2]
  exact inv.appMode c

end

section

variable (inv : Inv cpus isApp s)

include inv

/-- Between calls nothing holds the mutex. -/
theorem Inv.call (result : s.call t c = some s') : Inv cpus isApp s' := by
  unfold Tlb.call at result
  split at result <;> cases result
  next free =>
    have off : critical (s.calls t) = false := by
      rcases free with idle | done
      · rw [idle]; rfl
      · rw [done]; rfl
    have notOwner : s.tlbFlushMutex ≠ some t := fun owns => by
      rw [(inv.owner t).2 owns] at off
      cases off
    refine ⟨inv.appMode, fun u => ?_, fun u => ?_, fun u holds => ?_, inv.quiet⟩
    · by_cases same : u = t
      · subst same
        simpa [setPc, critical] using notOwner
      · simpa [setPc, same] using inv.owner u
    · by_cases same : u = t
      · subst same
        simp [CallOk, setPc]
      · refine Keeps.callOk (s := s) ?_ (inv.calls u)
        have calm : Calm s (setPc { s with
            home := update s.home t c
            flushedSince := update s.flushedSince t fun _ => false } t .flushSelf) :=
          ⟨fun _ => ⟨rfl, rfl⟩, fun _ => id, fun _ => id⟩
        exact calm.keeps (by simp [setPc, same]) (by simp [setPc, same])
          (by simp [setPc, same])
    · have ne : u ≠ t := by
        rintro rfl
        exact notOwner holds
      simpa [setPc, ne, CountOk] using inv.count u holds

theorem Inv.move (calm : Calm s s') {pc : FlushPc ι}
    (calls : s'.calls = update s.calls t pc) (home : s'.home = s.home)
    (since : ∀ u d, s.flushedSince u d = true → s'.flushedSince u d = true)
    (mutex : s'.tlbFlushMutex = if pc.critical then some t else
      if s.tlbFlushMutex = some t then none else s.tlbFlushMutex)
    (free : s.tlbFlushMutex = none ∨ s.tlbFlushMutex = some t ∨ pc.critical = false)
    (ok : CallOk isApp s' t)
    (count : pc.critical = true → CountOk cpus s' pc)
    (quiet : pc.critical = false → (s.tlbFlushMutex = some t → ∀ c, (s'.cpus c).ipi = .none) ∧
      (s.tlbFlushMutex ≠ some t → s'.cpus = s.cpus ∧ s'.pendingConfirms = s.pendingConfirms)) :
    Inv cpus isApp s' := by
  have own : s'.calls t = pc := by rw [calls, update_self]
  have other : ∀ u, u ≠ t → s'.calls u = s.calls u := fun u ne => by
    rw [calls, update_of_ne ne]
  refine ⟨calm.appMode inv, fun u => ?_, fun u => ?_, fun u holds => ?_, fun idle c => ?_⟩
  · by_cases same : u = t
    · subst same
      rw [own, mutex]
      cases critical : pc.critical with
      | true => simp
      | false =>
        by_cases held : s.tlbFlushMutex = some u <;> simp [held]
    · rw [other u same, inv.owner u, mutex]
      cases critical : pc.critical with
      | true =>
        rcases free with none | mine | off
        · simp [none, Ne.symm same]
        · simp [mine, Ne.symm same]
        · rw [critical] at off
          cases off
      | false =>
        by_cases held : s.tlbFlushMutex = some t
        · simp [held, Ne.symm same]
        · simp [held]
  · by_cases same : u = t
    · exact same ▸ ok
    · exact (calm.keeps (other u same) (by rw [home]) (since u)).callOk (inv.calls u)
  · cases critical : pc.critical with
    | true =>
      rw [mutex, critical, if_pos rfl] at holds
      cases holds
      rw [own]
      exact count critical
    | false =>
      rw [mutex, critical, if_neg (by decide)] at holds
      by_cases held : s.tlbFlushMutex = some t
      · rw [if_pos held] at holds
        cases holds
      · rw [if_neg held] at holds
        have ne : u ≠ t := by
          rintro rfl
          exact held holds
        obtain ⟨same, pending⟩ := (quiet critical).2 held
        have old := inv.count u holds
        rw [other u ne]
        cases pc : s.calls u <;> rw [pc] at old <;>
          simpa only [CountOk, same, pending] using old
  · cases critical : pc.critical with
    | true =>
      rw [mutex, critical, if_pos rfl] at idle
      cases idle
    | false =>
      by_cases held : s.tlbFlushMutex = some t
      · exact (quiet critical).1 held c
      · rw [mutex, critical, if_neg (by decide), if_neg held] at idle
        rw [((quiet critical).2 held).1]
        exact inv.quiet idle c

theorem Inv.within {old pc : FlushPc ι} (place : s.calls t = old)
    (calm : Calm s s') (calls : s'.calls = update s.calls t pc)
    (ok : s'.calls t = pc → CallOk isApp s' t) (count : CountOk cpus s' pc)
    (before : old.critical = true := by rfl) (on : pc.critical = true := by rfl)
    (home : s'.home = s.home := by rfl) (since : s'.flushedSince = s.flushedSince := by rfl)
    (mutex : s'.tlbFlushMutex = s.tlbFlushMutex := by rfl) : Inv cpus isApp s' := by
  have mine := (inv.owner t).1 (by rw [place, before])
  refine inv.move calm calls home (fun u d flushed => by rwa [since]) ?_ (.inr (.inl mine))
    (ok (by rw [calls, update_self])) (fun _ => count) fun off => ?_
  · rw [mutex, on, mine, if_pos rfl]
  · rw [on] at off
    cases off

theorem Inv.counted {pc : FlushPc ι} (place : s.calls t = pc)
    (on : pc.critical = true := by rfl) : CountOk cpus s pc :=
  place ▸ inv.count t ((inv.owner t).1 (by rw [place, on]))

end

/-- The CPU from which an action takes a lazy request back. -/
def takesBack (s : Tlb ι κ) : Action ι κ → Option ι
  | .go t =>
    match s.calls t with
    | .exchangeLazy c _ _ => if (s.cpus c).lazyFlushTlb then some c else none
    | _ => none
  | _ => none

/-- A request is taken back only if no returned call still relies on it. -/
def SoundStep (s : Tlb ι κ) (action : Action ι κ) : Prop :=
  ∀ c ∈ s.takesBack action, ∀ u, s.calls u = .returned → c ≠ s.home u → s.flushedSince u c = true

instance [Fintype κ] (s : Tlb ι κ) (action : Action ι κ) : Decidable (SoundStep s action) :=
  inferInstanceAs (Decidable (∀ c ∈ s.takesBack action, ∀ u, s.calls u = .returned →
    c ≠ s.home u → s.flushedSince u c = true))

/-- `c` drops its request: without one nothing changes for it; with one, only the calls that
rely on it. -/
theorem Covered.takeLazy {u : κ} {d : ι} {pc : FlushPc ι}
    (relies : d = c → (s.cpus c).lazyFlushTlb = true → s.flushedSince u c = true)
    (covered : Covered isApp s u d) :
    Covered isApp ((s.setCpu c { s.cpus c with lazyFlushTlb := false }).setPc t pc) u d := by
  rcases covered with flushed | ⟨isApp', isSoft⟩
  · exact .inl flushed
  · by_cases here : d = c
    · subst here
      cases lazy : (s.cpus d).lazyFlushTlb with
      | true => exact .inl (relies rfl lazy)
      | false =>
        refine .inr ⟨isApp', ?_⟩
        have same : { s.cpus d with lazyFlushTlb := false } = s.cpus d := by rw [← lazy]
        simpa [setPc, setCpu, same] using isSoft
    · exact .inr ⟨isApp', by simpa [setPc, setCpu, here] using isSoft⟩

theorem Inv.exchangeLazy (inv : Inv cpus isApp s) {left ipis : List ι} {next : FlushPc ι}
    (pc : s.calls t = .exchangeLazy c left ipis)
    (goes : next = if (s.cpus c).lazyFlushTlb then .scan left (ipis ++ [c]) else .scan left ipis)
    (sound : (s.cpus c).lazyFlushTlb = true →
      ∀ u, s.calls u = .returned → c ≠ s.home u → s.flushedSince u c = true) :
    Inv cpus isApp ((s.setCpu c { s.cpus c with lazyFlushTlb := false }).setPc t next) := by
  have on : critical next = true := by
    rw [goes]
    split <;> rfl
  have holds := (inv.owner t).1 (by rw [pc]; rfl)
  have ok := inv.calls t
  rw [CallOk, pc] at ok
  obtain ⟨app, nodup, own, ne, asked, cover⟩ := ok
  have idle : ∀ d, (s.cpus d).ipi = .none := inv.counted pc
  have noIpi : ∀ d, (((s.setCpu c { s.cpus c with lazyFlushTlb := false }).setPc t next).cpus d).ipi =
      .none := by
    intro d
    by_cases here : d = c
    · subst here
      simpa [setPc, setCpu] using idle d
    · simpa [setPc, setCpu, here] using idle d
  refine ⟨fun d => ?_, fun u => ?_, fun u => ?_, fun u held => ?_, fun free d => noIpi d⟩
  · by_cases here : d = c
    · subst here
      simpa [setPc, setCpu] using inv.appMode d
    · simpa [setPc, setCpu, here] using inv.appMode d
  · by_cases same : u = t
    · subst same
      simp [setPc, setCpu, on, holds]
    · simpa [setPc, setCpu, same] using inv.owner u
  · by_cases same : u = t
    · subst same
      have mine : ∀ d, d ≠ s.home u → d ≠ c → d ∈ left ∨ d ∈ ipis ∨ Covered isApp
          ((s.setCpu c { s.cpus c with lazyFlushTlb := false }).setPc u next) u d := by
        intro d neHome neC
        rcases cover d neHome with mem | mem | covered
        · exact .inl ((mem_cons.1 mem).resolve_left neC)
        · exact .inr (.inl mem)
        · exact .inr (.inr (covered.takeLazy fun same => absurd same neC))
      cases lazy : (s.cpus c).lazyFlushTlb with (rw [lazy] at goes; subst goes; rw [CallOk])
      | true =>
        simp only [setPc, update_self]
        refine ⟨app, ?_, ?_, fun d neHome => ?_⟩
        · simpa using nodup
        · simpa [setCpu, own] using Ne.symm ne
        · by_cases here : d = c
          · exact .inr (.inl (by simp [here]))
          · exact (mine d neHome here).imp id (Or.imp (mem_append_left _) id)
      | false =>
        simp only [setPc, update_self]
        refine ⟨app, ?_, own, fun d neHome => ?_⟩
        · exact nodup.sublist
            ((append_sublist_append_left ipis).2 (sublist_cons_self c left))
        · by_cases here : d = c
          · subst here
            -- The scheduler has taken the request.
            refine .inr (.inr ?_)
            rcases asked with on | flushed | ⟨x, taken⟩
            · rw [lazy] at on
              cases on
            · exact .inl flushed
            · exact .inr ⟨app, by simp [Soft, setCpu, taken]⟩
          · exact mine d neHome here
    · have off : critical (s.calls u) = false := by
        rw [← Bool.not_eq_true, inv.owner u, holds]
        exact fun owner => same (Option.some.inj owner).symm
      have old := inv.calls u
      have there : ((s.setCpu c { s.cpus c with lazyFlushTlb := false }).setPc t next).calls u =
          s.calls u := by simp [setPc, setCpu, same]
      rw [CallOk, there]
      cases pcU : s.calls u with
      | idle | flushSelf | lock => trivial
      | returned =>
        rw [CallOk, pcU] at old
        intro d neHome
        refine (old d neHome).takeLazy fun here lazy => ?_
        exact sound lazy u pcU (here ▸ neHome)
      | _ => rw [pcU] at off; cases off
  · have : u = t := by
      have : s.tlbFlushMutex = some u := held
      rw [holds] at this
      exact (Option.some.inj this).symm
    subst this
    subst goes
    cases (s.cpus c).lazyFlushTlb <;> simpa [CountOk, setPc] using noIpi

theorem calm_of_cpus (same : s'.cpus = s.cpus) : Calm s s' := by
  constructor <;> simp [same]

theorem tally_broadcast (all : ∀ c, c ∈ cpus) (distinct : cpus.Nodup)
    (idle : ∀ c, (s.cpus c).ipi = .none) (me : ι) :
    tally unconfirmed (fun c => if c = me then s.cpus c else { s.cpus c with ipi := .sent }) =
      cpus.length - 1 := by
  have size : cpus.length = Fintype.card ι := by
    rw [← toFinset_card_of_nodup distinct,
      eq_univ_iff_forall.2 fun c => mem_toFinset.2 (all c), card_univ]
  have ones : ∀ c, unconfirmed (if c = me then s.cpus c else { s.cpus c with ipi := .sent }) =
      if c = me then 0 else 1 := by
    intro c
    by_cases here : c = me
    · simp [here, unconfirmed, idle]
    · simp [here, unconfirmed]
  rw [tally, sum_congr rfl fun c _ => ones c, size, ← card_univ]
  rw [← card_erase_of_mem (mem_univ me), card_eq_sum_ones, ← filter_ne', sum_filter]
  exact sum_congr rfl fun c _ => by by_cases here : c = me <;> simp [here]

theorem Inv.go (all : ∀ c, c ∈ cpus) (distinct : cpus.Nodup) (inv : Inv cpus isApp s)
    (sound : SoundStep s (.go t)) (result : s.go cpus isApp t = some s') : Inv cpus isApp s' := by
  have ok := inv.calls t
  have owner := inv.owner t
  unfold Tlb.go at result
  split at result
  · cases result
  · cases result
  next pc =>
    rw [pc] at owner
    have notMine : s.tlbFlushMutex ≠ some t := fun mine => by simpa [critical] using owner.2 mine
    cases result
    have off : (if cpus.length ≤ 1 then returned else lock : FlushPc ι).critical =
        false := by split <;> rfl
    refine inv.move (calm_of_cpus rfl) rfl rfl (fun _ _ => flushTlbLocal_since) ?_
      (.inr (.inr off)) ?_ ?_ ?_
    · simp only [off, Bool.false_eq_true, if_false, if_neg notMine]
      rfl
    · rw [CallOk]
      simp only [setPc, update_self]
      by_cases single : cpus.length ≤ 1
      · -- There is no other CPU.
        rw [if_pos single]
        intro d (ne : d ≠ s.home t)
        have : [d, s.home t].length ≤ cpus.length :=
          ((nodup_cons.2 ⟨by simpa using ne, by simp⟩).subperm fun x _ => all x).length_le
        simp at this
        omega
      · rw [if_neg single]
        trivial
    · rw [off]
      exact nofun
    · exact fun _ => ⟨fun mine => absurd mine notMine, fun _ => ⟨rfl, rfl⟩⟩
  next pc =>
    split at result <;> cases result
    next free =>
      have on : (if isApp t = true then scan cpus [] else .storeCount []).critical =
          true := by split <;> rfl
      refine inv.move (calm_of_cpus rfl) rfl rfl (fun _ _ => id) ?_ (.inl free) ?_ ?_ ?_
      · rw [on]
        rfl
      · rw [CallOk]
        simp only [setPc, update_self]
        by_cases app : isApp t = true
        · rw [if_pos app]
          exact ⟨app, by simpa using distinct, by simp, fun d _ => .inl (all d)⟩
        · rw [if_neg app]
          exact fun h => absurd h app
      · intro _
        have idle := inv.quiet free
        by_cases app : isApp t = true
        · rw [if_pos app]
          exact idle
        · rw [if_neg app]
          exact idle
      · rw [on]
        exact nofun
  next ipis pc =>
    cases result
    rw [CallOk, pc] at ok
    obtain ⟨app, nodup, own, cover⟩ := ok
    refine inv.within pc (calm_of_cpus rfl) rfl (fun here => ?_) (inv.counted pc)
    rw [CallOk, here]
    exact fun _ => ⟨by simpa using nodup, own, fun d ne => (cover d ne).resolve_left (by simp)⟩
  next c left ipis pc =>
    rw [CallOk, pc] at ok
    obtain ⟨app, nodup, own, cover⟩ := ok
    have idle : ∀ d, (s.cpus d).ipi = .none := inv.counted pc
    split at result <;> cases result
    next self =>
      refine inv.within pc (calm_of_cpus rfl) rfl (fun here => ?_) idle
      rw [CallOk, here]
      exact ⟨app, nodup.sublist
        ((append_sublist_append_left ipis).2 (sublist_cons_self c left)), own,
        fun d ne => (cover d ne).imp_left fun mem =>
          (mem_cons.1 mem).resolve_left fun here => ne (here.trans self)⟩
    next other =>
      have calm : Calm s ((s.setCpu c { s.cpus c with lazyFlushTlb := true }).setPc t
          (.loadApp c left ipis)) := by
        constructor <;> intro d <;> by_cases here : d = c <;> simp [setPc, setCpu, here]
      refine inv.within pc calm rfl (fun here => ?_) fun d => ?_
      · rw [CallOk, here]
        exact ⟨app, nodup, own, other, .inl (by simp [setPc, setCpu]), fun d ne =>
          (cover d ne).imp_right (Or.imp_right (calm.covered fun _ => id))⟩
      · by_cases here : d = c
        · simpa [setPc, setCpu, here] using idle c
        · simpa [setPc, setCpu, here] using idle d
  next c left ipis pc =>
    rw [CallOk, pc] at ok
    cases result
    cases flag : (s.cpus c).appThread with
    | true =>
      refine inv.within pc (calm_of_cpus rfl) rfl (fun here => ?_) (inv.counted pc)
      rw [CallOk, here]
      exact ok
    | false =>
      obtain ⟨app, nodup, own, ne, asked, cover⟩ := ok
      refine inv.within pc (calm_of_cpus rfl) rfl (fun here => ?_) (inv.counted pc)
      rw [CallOk, here]
      refine ⟨app, nodup.sublist
        ((append_sublist_append_left ipis).2 (sublist_cons_self c left)), own,
        fun d neHome => ?_⟩
      rcases cover d neHome with mem | later
      · rcases mem_cons.1 mem with rfl | mem
        · -- The CPU runs no application thread and has the request.
          refine .inr (.inr ?_)
          rcases asked with lazy | flushed | ⟨x, taken⟩
          · refine .inr ⟨app, ?_⟩
            have mode := inv.appMode d
            rw [flag] at mode
            rcases mode with ⟨x, mode⟩ | mode | mode | ⟨x, mode⟩ <;> simp [setPc, Soft, mode, lazy]
          · exact .inl flushed
          · exact .inr ⟨app, by simp [setPc, Soft, taken]⟩
        · exact .inl mem
      · exact .inr later
  next c left ipis pc =>
    cases result
    exact inv.exchangeLazy pc rfl fun lazy => sound c (by simp [takesBack, pc, lazy])
  next ipis pc =>
    rw [CallOk, pc] at ok
    have idle : ∀ c, (s.cpus c).ipi = .none := inv.counted pc
    have zero : tally unconfirmed s.cpus = 0 :=
      tally_eq_zero.2 fun c => by rw [unconfirmed, if_pos (idle c)]
    cases result
    by_cases every : (if isApp t = true then ipis.length else cpus.length - 1) = cpus.length - 1
    · simp only [if_pos every]
      refine inv.within pc (calm_of_cpus rfl) rfl (fun here => ?_) ⟨congrArg _ every, idle⟩
      rw [CallOk, here]
      trivial
    · simp only [if_neg every]
      have app : isApp t = true := by
        by_contra no
        rw [if_neg no] at every
        exact every rfl
      obtain ⟨nodup, own, cover⟩ := ok app
      refine inv.within pc (calm_of_cpus rfl) rfl (fun here => ?_) ⟨?_, fun c _ => idle c⟩
      · rw [CallOk, here]
        exact ⟨nodup, own, fun d ne => (cover d ne).imp_right .inr⟩
      · simp [setPc, app, zero]
  next pc =>
    obtain ⟨pending, idle⟩ := inv.counted pc
    cases result
    refine inv.within pc ?_ rfl (fun here => ?_) ?_
    · constructor <;> intro d <;> by_cases here : d = s.home t <;> simp [setPc, here]
    · rw [CallOk, here]
      exact fun d (ne : d ≠ s.home t) => .inl (by simp [setPc, ne])
    · show s.pendingConfirms = _
      rw [pending]
      exact congrArg _ (tally_broadcast all distinct idle (s.home t)).symm
  next pc =>
    rw [CallOk, pc] at ok
    cases result
    refine inv.within pc (calm_of_cpus rfl) rfl (fun here => ?_) ?_
    · rw [CallOk, here]
      exact fun d ne => (ok.2.2 d ne).resolve_left (by simp)
    · simpa [CountOk, setPc] using (inv.counted pc).1
  next c left pc =>
    rw [CallOk, pc] at ok
    obtain ⟨nodup, own, cover⟩ := ok
    obtain ⟨pending, idle⟩ := inv.counted pc
    cases result
    have calm : Calm s ((s.setCpu c { s.cpus c with ipi := .sent }).setPc t (.send left)) := by
      constructor <;> intro d <;> by_cases here : d = c <;> simp [setPc, setCpu, here]
    have total := tally_update unconfirmed s.cpus c { s.cpus c with ipi := .sent }
    have none : unconfirmed (s.cpus c) = 0 := if_pos (idle c mem_cons_self)
    rw [none, show unconfirmed { s.cpus c with ipi := .sent } = 1 by simp [unconfirmed]] at total
    refine inv.within pc calm rfl (fun here => ?_) ⟨?_, fun d mem => ?_⟩
    · rw [CallOk, here]
      refine ⟨(nodup_cons.1 nodup).2, fun here => own (mem_cons_of_mem _ here), fun d ne => ?_⟩
      rcases cover d ne with mem | signalled
      · rcases mem_cons.1 mem with rfl | mem
        · exact .inr (.inl (by simp [setPc, setCpu]))
        · exact .inl mem
      · exact .inr (signalled.imp (calm.sent d) (calm.covered fun _ => id))
    · simp only [setPc, setCpu, length_cons] at pending total ⊢
      omega
    · have ne : d ≠ c := fun here => (nodup_cons.1 nodup).1 (here ▸ mem)
      simpa [setPc, setCpu, ne] using idle d (mem_cons_of_mem _ mem)
  next pc =>
    split at result
    next zero =>
      rw [CallOk, pc] at ok
      have mine := owner.1 (by rw [pc]; rfl)
      have idle : ∀ c, (s.cpus c).ipi = .none := by
        intro c
        have none : tally unconfirmed s.cpus = 0 := by
          have : s.pendingConfirms = tally unconfirmed s.cpus := inv.counted pc
          omega
        have := tally_eq_zero.1 none c
        by_contra busy
        simp [unconfirmed, busy] at this
      cases result
      refine inv.move (calm_of_cpus rfl) rfl rfl (fun _ _ => id) ?_ (.inr (.inl mine)) ?_
        nofun (fun _ => ⟨fun _ => idle, fun other => absurd mine other⟩)
      · simp [critical, mine, setPc]
      · rw [CallOk]
        simp only [setPc, update_self]
        intro d ne
        exact (ok d ne).resolve_left (by rw [idle d]; decide)
    · cases result

/-! ## Runs -/

/-- A step of an allowed action. -/
def Taken (cpus : List ι) (isApp : κ → Bool) (allowed : Tlb ι κ → Action ι κ → Prop)
    (s s' : Tlb ι κ) : Prop := ∃ action, allowed s action ∧ s.step cpus isApp action = some s'

def SoundReached (cpus : List ι) (isApp : κ → Bool) : Tlb ι κ → Prop :=
  Reachable Quiet (Taken cpus isApp SoundStep)

theorem Inv.quietStart (quiet : s.Quiet) : Inv cpus isApp s := by
  obtain ⟨idle, mutex, still⟩ := quiet
  refine ⟨fun c => .inr (.inl (still c).2.2), fun t => ?_, fun t => ?_, fun t holds => ?_,
    fun _ c => (still c).1⟩
  · simp [idle t, critical, mutex]
  · rw [CallOk, idle t]
    trivial
  · rw [mutex] at holds
    cases holds

theorem SoundReached.inv (all : ∀ c, c ∈ cpus) (distinct : cpus.Nodup)
    (reached : SoundReached cpus isApp s) : Inv cpus isApp s := by
  apply Reachable.invariant (I := Inv cpus isApp) ?_ ?_ reached
  · exact fun s quiet => Inv.quietStart quiet
  · rintro s s' _ inv ⟨action, sound, result⟩
    cases action with
    | reschedule c app => exact inv.reschedule result
    | schedule c => exact inv.schedule result
    | interrupt c => exact inv.interrupt result
    | call t c => exact inv.call result
    | go t => exact inv.go all distinct sound result

/-- **The shootdown** in every run that takes no request back that a returned call relies on.
As long as a call counts as returned, so in every state from its return on: for a call of an
application thread, a CPU that runs an application thread has flushed since the call began; for
any other call, every other CPU has.  While a call waits, the counter is zero exactly when no
interrupt is left unconfirmed. -/
theorem sound_tlbFlushed (all : ∀ c, c ∈ cpus) (distinct : cpus.Nodup)
    (reached : SoundReached cpus isApp s) :
    (∀ t, s.calls t = .returned → isApp t = true → ∀ c, c ≠ s.home t →
        (s.cpus c).mode = .run true → s.flushedSince t c = true) ∧
      (∀ t, s.calls t = .returned → isApp t = false → ∀ c, c ≠ s.home t →
        s.flushedSince t c = true) ∧
      ∀ t, s.calls t = .wait → (s.pendingConfirms = 0 ↔ ∀ c, (s.cpus c).ipi = .none) := by
  have inv := reached.inv all distinct
  refine ⟨fun t pc app c ne mode => ?_, fun t pc app c ne => ?_, fun t pc => ?_⟩
  · have ok := inv.calls t
    rw [CallOk, pc] at ok
    rcases ok c ne with flushed | ⟨-, isSoft⟩
    · exact flushed
    · simp [Soft, mode] at isSoft
  · have ok := inv.calls t
    rw [CallOk, pc] at ok
    rcases ok c ne with flushed | ⟨isApp', -⟩
    · exact flushed
    · rw [app] at isApp'
      cases isApp'
  · have pending : s.pendingConfirms = tally unconfirmed s.cpus := inv.counted pc
    rw [pending, Int.natCast_eq_zero, tally_eq_zero]
    refine forall_congr' fun c => ?_
    by_cases idle : (s.cpus c).ipi = .none <;> simp [unconfirmed, idle]

end Steps

/-- Three CPUs, the last of which runs a kernel thread; two application threads. -/
def threeCpus : Tlb (Fin 3) (Fin 2) where
  cpus c := ⟨false, c != 2, .run (c != 2), .none⟩
  calls _ := .idle
  home _ := 0
  tlbFlushMutex := none
  pendingConfirms := 0
  flushedSince _ _ := false

theorem threeCpus_quiet : threeCpus.Quiet := ⟨fun _ => rfl, rfl, fun _ => ⟨rfl, rfl, rfl⟩⟩

/-- Thread 0 flushes from CPU 0: it interrupts CPU 1 and leaves a request with CPU 2. -/
def firstFlush : List (Action (Fin 3) (Fin 2)) :=
  [.call 0 0, .go 0, .go 0, .go 0, .go 0, .go 0, .go 0, .go 0, .go 0, .go 0, .go 0, .go 0, .go 0,
    .interrupt 1, .interrupt 1, .go 0]

def firstFlushed : Option (Tlb (Fin 3) (Fin 2)) :=
  firstFlush.foldlM (fun s action =>
    if SoundStep s action then s.step [0, 1, 2] (fun _ => true) action else none) threeCpus

theorem firstFlushed_isSome : firstFlushed.isSome := by decide +kernel

def flushedOnce : Tlb (Fin 3) (Fin 2) := firstFlushed.get firstFlushed_isSome

/-- After the return CPU 1, which runs an application thread, has flushed. -/
theorem flushedOnce_tlbFlushed :
    flushedOnce.calls 0 = .returned ∧ (flushedOnce.cpus 1).mode = .run true ∧
      flushedOnce.flushedSince 0 1 = true := by
  have returned : flushedOnce.calls 0 = .returned := by decide +kernel
  have runs : (flushedOnce.cpus 1).mode = .run true := by decide +kernel
  have reached : SoundReached [0, 1, 2] (fun _ => true) flushedOnce :=
    Reachable.testedEvents (.start threeCpus_quiet) (some_get firstFlushed_isSome).symm
  exact ⟨returned, runs, (sound_tlbFlushed (by decide) (by decide) reached).1 0 returned rfl 1
    (by decide +kernel) runs⟩

/-- CPU 2 begins to switch to an application thread; thread 1, flushing from CPU 1, takes the
request back, and CPU 2 goes on. -/
def retraction : List (Action (Fin 3) (Fin 2)) :=
  firstFlush ++ [.reschedule 2 true, .schedule 2, .call 1 1, .go 1, .go 1, .go 1, .go 1, .go 1,
    .go 1, .go 1, .go 1, .go 1, .schedule 2, .schedule 2]

def retracted : Option (Tlb (Fin 3) (Fin 2)) :=
  retraction.foldlM (step [0, 1, 2] fun _ => true) threeCpus

theorem retracted_isSome : retracted.isSome := by decide +kernel

def ranStale : Tlb (Fin 3) (Fin 2) := retracted.get retracted_isSome

/-- The call of thread 0 has returned, and CPU 2 runs an application thread without having
flushed since that call began. -/
theorem retracted_request_runs_stale :
    Reachable Quiet (Taken [0, 1, 2] (fun _ => true) fun _ _ => True) ranStale ∧
      ranStale.calls 0 = .returned ∧ (2 : Fin 3) ≠ ranStale.home 0 ∧
        (ranStale.cpus 2).mode = .run true ∧ ranStale.flushedSince 0 2 = false :=
  ⟨Reachable.freeEvents (.start threeCpus_quiet) retraction (fun _ _ _ => trivial)
    (some_get retracted_isSome).symm, by decide +kernel⟩

end Tlb

end MiniOsv.Mmu
