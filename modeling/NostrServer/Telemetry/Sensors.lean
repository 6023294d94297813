import NostrServer.Lib.Holding
import NostrServer.Lib.Runs

namespace NostrServer.Telemetry
open Holding

inductive SensorType where
  | none
  | shared
  | unique
deriving DecidableEq

/-- The sensors of one type and what the collector has of that type, under whose mutex each
call runs; a call that enables a sensor makes two of them, one that looks up the shared sensor
and one that registers. Holders are numbered as they are made. -/
structure Sensors (ι : Type) where
  /-- `Sensor::_h`. -/
  held : ι → Option Nat
  /-- As what the sensor is about to register the holder it has made. -/
  pending : ι → SensorType
  /-- How many holders were made. -/
  made : Nat
  /-- `SensorHolder::_scount`. -/
  scount : Nat → UInt64
  /-- Whether the collector's `shared_sensors` can convert the type. -/
  sharedDefined : Bool
  uniqueDefined : Bool
  /-- The weak pointer in `_shared_sensors`. -/
  sharedSensors : Option Nat
  activeShared : List Nat
  activeUnique : List Nat

namespace Sensors
variable {ι : Type}

def initial : Sensors ι where
  held := fun _ => none
  pending := fun _ => .none
  made := 0
  scount := fun _ => 0
  sharedDefined := false
  uniqueDefined := false
  sharedSensors := none
  activeShared := []
  activeUnique := []

/-- A holder that a shared pointer keeps: one of a sensor, or one of the collector. -/
def Live (s : Sensors ι) (h : Nat) : Prop :=
  (∃ i, s.held i = some h) ∨ h ∈ s.activeShared ∨ h ∈ s.activeUnique

instance [Fintype ι] (s : Sensors ι) (h : Nat) : Decidable (s.Live h) :=
  inferInstanceAs (Decidable (_ ∨ _))

def anySensor (s : Sensors ι) (h : Nat) : Bool := 0 < s.scount h

def canRegisterSharedSensor (s : Sensors ι) : Bool := s.sharedDefined

def canRegisterUniqueSensor (s : Sensors ι) : Bool := s.uniqueDefined

def canRegisterSensorAuto (s : Sensors ι) : SensorType :=
  match s.uniqueDefined, s.sharedDefined with
  | false, false => .none
  | true, false => .unique
  | false, true => .shared
  | true, true => .none

section
variable [Fintype ι]

def getSharedSensor (s : Sensors ι) : Option Nat := s.sharedSensors.filter (fun h => s.Live h)

def registerSharedSensor (s : Sensors ι) (h : Nat) : Option Nat × Sensors ι :=
  match s.getSharedSensor with
  | some other => (some other, s)
  | none =>
    let s := { s with sharedSensors := some h }
    if s.sharedDefined then (some h, { s with activeShared := s.activeShared ++ [h] })
    else (none, s)

end

/-- `register_unique_sensor`, which lists the sensor among the shared ones. -/
def registerUniqueSensor (s : Sensors ι) (h : Nat) : Option Nat × Sensors ι :=
  if s.uniqueDefined then (some h, { s with activeShared := s.activeShared ++ [h] })
  else (none, s)

/-- What `collect_lk` leaves of the active sensors. -/
def collectLk (s : Sensors ι) : Sensors ι :=
  { s with
    activeShared := s.activeShared.filter s.anySensor
    activeUnique := s.activeUnique.filter s.anySensor }

section
variable [DecidableEq ι]

/-- A holder made for the sensor, and counted. -/
def make (s : Sensors ι) (i : ι) (as : SensorType) : Sensors ι :=
  { s with
    held := Function.update s.held i (some s.made)
    pending := Function.update s.pending i as
    made := s.made + 1
    scount := Function.update s.scount s.made (0 + 1) }

def disable (s : Sensors ι) (i : ι) : Sensors ι :=
  match s.held i with
  | some h =>
    { s with
      scount := Function.update s.scount h (s.scount h - 1)
      held := Function.update s.held i none }
  | none => s

variable [Fintype ι]

/-- The sensor takes what the collector has, else a holder of its own. -/
def lookUp (s : Sensors ι) (i : ι) : Sensors ι :=
  match s.getSharedSensor with
  | some h => { s with held := Function.update s.held i (some h) }
  | none => s.make i .shared

/-- The cases of `enable_for`, up to the registration. -/
def enableAs (s : Sensors ι) (i : ι) : SensorType → Sensors ι
  | .none => s
  | .shared => s.lookUp i
  | .unique => s.make i .unique

def enableSharedFor (s : Sensors ι) (i : ι) : Sensors ι :=
  if s.canRegisterSharedSensor then s.enableAs i .shared else s

def enableUniqueFor (s : Sensors ι) (i : ι) : Sensors ι :=
  if s.canRegisterUniqueSensor then s.enableAs i .unique else s

-- A type defined between the check and the lookup changes nothing: what comes after the
-- check is what the call for that kind of sensor does.
def enableFor (s : Sensors ι) (i : ι) : Sensors ι := s.enableAs i s.canRegisterSensorAuto

def register (s : Sensors ι) (i : ι) : Sensors ι :=
  let answered (answer : Option Nat × Sensors ι) : Sensors ι :=
    { answer.2 with
      held := Function.update s.held i answer.1
      pending := Function.update s.pending i .none }
  match s.pending i, s.held i with
  | .shared, some h => answered (s.registerSharedSensor h)
  | .unique, some h => answered (s.registerUniqueSensor h)
  | _, _ => s

end

end Sensors

inductive EnableCall where
  | enableSharedFor
  | enableUniqueFor
  | enableFor
deriving DecidableEq

/-- What happens: a call begins, its registration, a disabling (a destructor too), a
collection, a type defined on the collector. -/
inductive SensorStep (ι : Type) where
  | enable (i : ι) (call : EnableCall)
  | register (i : ι)
  | disable (i : ι)
  | collect
  | regType (as : SensorType)
deriving DecidableEq

namespace Sensors
variable {ι : Type} [Fintype ι] [DecidableEq ι]

def enable (s : Sensors ι) (i : ι) : EnableCall → Sensors ι
  | .enableSharedFor => s.enableSharedFor i
  | .enableUniqueFor => s.enableUniqueFor i
  | .enableFor => s.enableFor i

def regType (s : Sensors ι) : SensorType → Sensors ι
  | .none => s
  | .shared => { s with sharedDefined := true }
  | .unique => { s with uniqueDefined := true }

/-- A sensor takes its calls one after another. -/
def step (s : Sensors ι) : SensorStep ι → Sensors ι
  | .enable i call => if s.pending i = .none then s.enable i call else s
  | .register i => s.register i
  | .disable i => if s.pending i = .none then s.disable i else s
  | .collect => s.collectLk
  | .regType as => s.regType as

end Sensors

def sensors (ι : Type) [Fintype ι] [DecidableEq ι] : Machine (Sensors ι) (SensorStep ι) where
  start := .initial
  step := Sensors.step

namespace Sensors
variable {ι : Type} {s : Sensors ι}

/-- As what a call enables a sensor, if at all. -/
def enabledAs (s : Sensors ι) : EnableCall → SensorType
  | .enableSharedFor => if s.canRegisterSharedSensor then .shared else .none
  | .enableUniqueFor => if s.canRegisterUniqueSensor then .unique else .none
  | .enableFor => s.canRegisterSensorAuto

def Defines (s : Sensors ι) : SensorType → Prop
  | .none => True
  | .shared => s.sharedDefined
  | .unique => s.uniqueDefined

theorem enabledAs_defined (s : Sensors ι) (call : EnableCall) : s.Defines (s.enabledAs call) := by
  cases call <;> cases hs : s.sharedDefined <;> cases hu : s.uniqueDefined <;>
    simp [enabledAs, canRegisterSharedSensor, canRegisterUniqueSensor, canRegisterSensorAuto,
      Defines, hs, hu]

variable [Fintype ι]

/-- What a count of the sensors is for. -/
structure Accounted (s : Sensors ι) : Prop where
  exact : ∀ h, s.Live h → (s.scount h).toNat = holders s.held h
  anySensor : ∀ h, s.Live h → (s.anySensor h = false ↔ ∀ i, s.held i ≠ some h)
  noWrap : ∀ i h, s.held i = some h → 0 < (s.scount h).toNat
  collect : ∀ h, h ∈ s.activeShared ++ s.activeUnique →
    h ∉ s.collectLk.activeShared ++ s.collectLk.activeUnique → ∀ i, s.held i ≠ some h

/-- The sensor holds nothing, or already holds the shared sensor that it is to find. -/
def MayEnable (s : Sensors ι) (i : ι) : SensorType → Prop
  | .none => True
  | .shared => s.getSharedSensor = s.held i
  | .unique => s.held i = none

/-- A step that moves no reference behind the count. A sensor that registers as shared finds
that no other one was registered since its lookup. -/
def Counted (s : Sensors ι) : SensorStep ι → Prop
  | .enable i call => s.pending i = .none → s.MayEnable i (s.enabledAs call)
  | .register i => s.pending i = .shared → s.getSharedSensor = none
  | .disable _ | .collect | .regType _ => True

/-- What counted steps keep: at most one sensor holds a holder, the collector lists it once
it is registered, and the shared sensor of the collector is not one still to be registered. -/
structure Settled (s : Sensors ι) : Prop where
  exact : ∀ h, (s.scount h).toNat = holders s.held h
  single : ∀ i j h, s.held i = some h → s.held j = some h → i = j
  listed : ∀ i h, s.held i = some h → s.pending i = .none → h ∈ s.activeShared
  waiting : ∀ i, s.pending i ≠ .none → ∃ h, s.held i = some h ∧ s.sharedSensors ≠ some h
  defined : ∀ i, s.Defines (s.pending i)
  made : ∀ h, s.Live h ∨ s.sharedSensors = some h → h < s.made
  unlisted : s.activeUnique = []

theorem settled_initial : (initial : Sensors ι).Settled where
  exact h := (holders_eq_zero.mpr (fun i hi => by cases hi)).symm
  single i j h hi := by cases hi
  listed i h hi := by cases hi
  waiting i hi := absurd rfl hi
  defined i := trivial
  made h hl := by
    rcases hl with (⟨i, hi⟩ | hl | hl) | hl
    · cases hi
    · cases hl
    · cases hl
    · cases hl
  unlisted := rfl

namespace Settled

theorem counts (hs : s.Settled) (hi : s.held i = some h) : 0 < (s.scount h).toNat := by
  rw [hs.exact h]
  exact holders_pos.mpr ⟨i, hi⟩

theorem anySensor_iff (hs : s.Settled) (h : Nat) :
    s.anySensor h = true ↔ ∃ i, s.held i = some h := by
  rw [← holders_pos, ← hs.exact h, anySensor, decide_eq_true_iff]
  rfl

theorem accounted (hs : s.Settled) : s.Accounted where
  exact h _ := hs.exact h
  anySensor h _ := by
    rw [← Bool.not_eq_true, hs.anySensor_iff h, not_exists]
  noWrap i h := hs.counts
  collect h hm hn i hi := by
    apply hn
    have hany : s.anySensor h = true := (hs.anySensor_iff h).mpr ⟨i, hi⟩
    simpa [collectLk, hany] using hm

/-- The holder that is made next is nobody's. -/
theorem fresh (hs : s.Settled) (i : ι) : s.held i ≠ some s.made :=
  fun hi => Nat.lt_irrefl _ (hs.made _ (Or.inl (Or.inl ⟨i, hi⟩)))

theorem collectLk (hs : s.Settled) : s.collectLk.Settled where
  exact := hs.exact
  single := hs.single
  listed i h hi hp := List.mem_filter.mpr ⟨hs.listed i h hi hp, (hs.anySensor_iff h).mpr ⟨i, hi⟩⟩
  waiting := hs.waiting
  defined := hs.defined
  made h hl := by
    apply hs.made h
    apply hl.imp_left
    rintro (hi | hl | hl)
    · exact Or.inl hi
    · exact Or.inr (Or.inl (List.mem_of_mem_filter hl))
    · exact Or.inr (Or.inr (List.mem_of_mem_filter hl))
  unlisted := by
    change s.activeUnique.filter _ = []
    rw [hs.unlisted]
    rfl

theorem regType (hs : s.Settled) (as : SensorType) : (s.regType as).Settled := by
  have hd : ∀ t, s.Defines t → (s.regType as).Defines t := by
    intro t ht
    cases as <;> cases t <;> trivial
  cases as with
  | none => exact hs
  | shared => exact { hs with defined := fun i => hd _ (hs.defined i) }
  | unique => exact { hs with defined := fun i => hd _ (hs.defined i) }

end Settled
end Sensors

namespace Sensors
variable {ι : Type} [DecidableEq ι] {s : Sensors ι}

theorem held_make : (s.make i as).held j = some h ↔
    j = i ∧ h = s.made ∨ j ≠ i ∧ s.held j = some h := by
  by_cases hj : j = i
  · subst hj
    simp [make, eq_comm]
  · simp [make, hj]

theorem pending_make : (s.make i as).pending j = if j = i then as else s.pending j :=
  Function.update_apply s.pending i as j

theorem live_make (hl : (s.make i as).Live h) : h = s.made ∨ s.Live h := by
  rcases hl with ⟨j, hj⟩ | hl
  · rcases held_make.mp hj with ⟨-, he⟩ | ⟨-, hj⟩
    · exact Or.inl he
    · exact Or.inr (Or.inl ⟨j, hj⟩)
  · exact Or.inr (Or.inr hl)

theorem held_disable : (s.disable i).held j = some h ↔ j ≠ i ∧ s.held j = some h := by
  by_cases hj : j = i
  · subst hj
    cases hi : s.held j <;> simp [disable, hi]
  · cases hi : s.held i <;> simp [disable, hi, hj]

/-- Disabling changes a count and who holds what, and nothing else. -/
theorem disable_frame (s : Sensors ι) (i : ι) :
    ∃ scount held, s.disable i = { s with scount := scount, held := held } := by
  unfold disable
  split
  · exact ⟨_, _, rfl⟩
  · exact ⟨s.scount, s.held, rfl⟩

theorem live_disable (hl : (s.disable i).Live h) : s.Live h := by
  rcases hl with ⟨j, hj⟩ | hl
  · exact Or.inl ⟨j, (held_disable.mp hj).2⟩
  · obtain ⟨scount, held, he⟩ := s.disable_frame i
    rw [he] at hl
    exact Or.inr hl

variable [Fintype ι]

theorem disable_exact (hs : ∀ h, (s.scount h).toNat = holders s.held h) (h : Nat) :
    ((s.disable i).scount h).toNat = holders (s.disable i).held h := by
  cases hi : s.held i with
  | none => simp [disable, hi, hs h]
  | some g =>
    by_cases hh : h = g
    · subst hh
      have hle : (1 : UInt64) ≤ s.scount h := by
        change 1 ≤ (s.scount h).toNat
        rw [hs h]
        exact holders_pos.mpr ⟨i, hi⟩
      have hone : holders (Function.update s.held i none) h + 1 = holders s.held h :=
        holders_release hi (by simp)
      have hsub : (s.scount h - 1).toNat = (s.scount h).toNat - 1 :=
        UInt64.toNat_sub_of_le _ _ hle
      simp only [disable, hi, Function.update_self]
      rw [hsub, hs h]
      omega
    · have hi' : s.held i ≠ some h := by simp [hi, Ne.symm hh]
      simp [disable, hi, hh, hs h, holders_elsewhere hi']

namespace Settled

theorem make (hs : s.Settled) (hi : s.held i = none) (has : as ≠ .none) (hd : s.Defines as) :
    (s.make i as).Settled where
  exact h := by
    by_cases hh : h = s.made
    · subst hh
      have hnone : holders s.held s.made = 0 := holders_eq_zero.mpr hs.fresh
      simp [Sensors.make, holders_take (hs.fresh i), hnone]
    · have hi : s.held i ≠ some h := by simp [hi]
      have hx : some s.made ≠ some h := fun he => hh (Option.some.inj he).symm
      simp [Sensors.make, hh, hs.exact h, holders_elsewhere hi hx]
  single j k h hj hk := by
    rcases held_make.mp hj with ⟨hji, hm⟩ | ⟨-, hj⟩
    · rcases held_make.mp hk with ⟨hki, -⟩ | ⟨-, hk⟩
      · exact hji.trans hki.symm
      · exact absurd (hm ▸ hk) (hs.fresh k)
    · rcases held_make.mp hk with ⟨-, hm⟩ | ⟨-, hk⟩
      · exact absurd (hm ▸ hj) (hs.fresh j)
      · exact hs.single j k h hj hk
  listed j h hj hp := by
    rw [pending_make] at hp
    rcases held_make.mp hj with ⟨hji, -⟩ | ⟨hji, hj⟩
    · rw [if_pos hji] at hp
      exact absurd hp has
    · rw [if_neg hji] at hp
      exact hs.listed j h hj hp
  waiting j hj := by
    rw [pending_make] at hj
    by_cases hji : j = i
    · refine ⟨s.made, held_make.mpr (Or.inl ⟨hji, rfl⟩), ?_⟩
      intro he
      exact Nat.lt_irrefl _ (hs.made _ (Or.inr he))
    · rw [if_neg hji] at hj
      obtain ⟨h, hh, hn⟩ := hs.waiting j hj
      exact ⟨h, held_make.mpr (Or.inr ⟨hji, hh⟩), hn⟩
  defined j := by
    change s.Defines ((s.make i as).pending j)
    rw [pending_make]
    split
    · exact hd
    · exact hs.defined j
  made h hl := by
    apply Nat.lt_succ_of_le
    rcases hl with hl | hl
    · rcases live_make hl with rfl | hl
      · exact Nat.le_refl _
      · exact Nat.le_of_lt (hs.made h (Or.inl hl))
    · exact Nat.le_of_lt (hs.made h (Or.inr hl))
  unlisted := hs.unlisted

theorem disable (hs : s.Settled) (hp : s.pending i = .none) : (s.disable i).Settled := by
  have hexact := s.disable_exact (i := i) hs.exact
  have hheld : ∀ j h, (s.disable i).held j = some h ↔ j ≠ i ∧ s.held j = some h :=
    fun j h => held_disable
  have hlive : ∀ h, (s.disable i).Live h → s.Live h := fun h => live_disable
  obtain ⟨scount, held, he⟩ := s.disable_frame i
  rw [he] at hexact hheld hlive ⊢
  exact {
    exact := hexact
    single := fun j k h hj hk => hs.single j k h ((hheld j h).mp hj).2 ((hheld k h).mp hk).2
    listed := fun j h hj hq => hs.listed j h ((hheld j h).mp hj).2 hq
    waiting := by
      intro j hj
      obtain ⟨h, hh, hn⟩ := hs.waiting j hj
      have hji : j ≠ i := fun he => hj (he ▸ hp)
      exact ⟨h, (hheld j h).mpr ⟨hji, hh⟩, hn⟩
    defined := hs.defined
    made := fun h hl => hs.made h (hl.imp_left (hlive h))
    unlisted := hs.unlisted }

/-- The holder of a sensor that waits is registered: nobody had a shared one meanwhile. -/
theorem registered (hs : s.Settled) (hi : s.held i = some f) (shared : Option Nat)
    (hshared : shared = s.sharedSensors ∨ shared = some f) :
    Settled { s with
      held := Function.update s.held i (some f)
      pending := Function.update s.pending i .none
      sharedSensors := shared
      activeShared := s.activeShared ++ [f] } := by
  have hkeep : Function.update s.held i (some f) = s.held := by rw [← hi, Function.update_eq_self]
  rw [hkeep]
  exact {
    exact := hs.exact
    single := hs.single
    listed := by
      intro j h hj hp
      apply List.mem_append.mpr
      by_cases hji : j = i
      · have hf : h = f := by rw [hji, hi] at hj; exact (Option.some.inj hj).symm
        exact Or.inr (List.mem_singleton.mpr hf)
      · have hp : s.pending j = .none := by simpa [hji] using hp
        exact Or.inl (hs.listed j h hj hp)
    waiting := by
      intro j hj
      by_cases hji : j = i
      · simp [hji] at hj
      · have hj : s.pending j ≠ .none := by simpa [hji] using hj
        obtain ⟨h, hh, hn⟩ := hs.waiting j hj
        refine ⟨h, hh, ?_⟩
        rcases hshared with rfl | rfl
        · exact hn
        · intro he
          exact hji (hs.single j i h hh (hi.trans he))
    defined := by
      intro j
      change s.Defines (Function.update s.pending i .none j)
      by_cases hji : j = i
      · simp [hji, Defines]
      · simpa [hji] using hs.defined j
    made := by
      have hf : f < s.made := hs.made f (Or.inl (Or.inl ⟨i, hi⟩))
      intro h hl
      rcases hl with (hj | hl | hl) | hl
      · exact hs.made h (Or.inl (Or.inl hj))
      · rcases List.mem_append.mp hl with hl | hl
        · exact hs.made h (Or.inl (Or.inr (Or.inl hl)))
        · exact List.mem_singleton.mp hl ▸ hf
      · exact hs.made h (Or.inl (Or.inr (Or.inr hl)))
      · rcases hshared with rfl | rfl
        · exact hs.made h (Or.inr hl)
        · exact Option.some.inj hl ▸ hf
    unlisted := hs.unlisted }

theorem register (hs : s.Settled) (hc : s.pending i = .shared → s.getSharedSensor = none) :
    (s.register i).Settled := by
  have hd : s.Defines (s.pending i) := hs.defined i
  cases hp : s.pending i with
  | none => simpa [Sensors.register, hp] using hs
  | shared =>
    obtain ⟨f, hf, -⟩ := hs.waiting i (by simp [hp])
    have hdef : s.sharedDefined = true := by rw [hp] at hd; exact hd
    have hr := hs.registered hf (some f) (Or.inr rfl)
    simpa [Sensors.register, registerSharedSensor, hp, hf, hc hp, hdef] using hr
  | unique =>
    obtain ⟨f, hf, -⟩ := hs.waiting i (by simp [hp])
    have hdef : s.uniqueDefined = true := by rw [hp] at hd; exact hd
    have hr := hs.registered hf s.sharedSensors (Or.inl rfl)
    simpa [Sensors.register, registerUniqueSensor, hp, hf, hdef] using hr

/-- A race that is lost: the sensor is given another holder than the one it made. -/
theorem register_lost (hs : s.Settled) (hp : s.pending i = .shared)
    (hg : s.getSharedSensor = some h) :
    s.held i ≠ some h ∧ s.register i = { s with
      held := Function.update s.held i (some h)
      pending := Function.update s.pending i .none } := by
  obtain ⟨f, hf, hn⟩ := hs.waiting i (by simp [hp])
  have hweak : s.sharedSensors = some h := Option.eq_some_of_filter_eq_some hg
  constructor
  · intro hi
    apply hn
    rw [hweak, ← hi, hf]
  · simp [Sensors.register, registerSharedSensor, hp, hf, hg]

theorem enableAs (hs : s.Settled) (hd : s.Defines as)
    (hc : s.MayEnable i as) : (s.enableAs i as).Settled := by
  cases as with
  | none => exact hs
  | shared =>
    change (s.lookUp i).Settled
    unfold lookUp
    split
    · rename_i h hg
      have hkeep : Function.update s.held i (some h) = s.held := by
        rw [← hg, show s.getSharedSensor = s.held i from hc, Function.update_eq_self]
      rw [hkeep]
      exact hs
    · rename_i hg
      exact hs.make (Eq.trans (Eq.symm hc) hg) (by decide) hd
  | unique => exact hs.make hc (by decide) hd

end Settled

theorem enable_eq (s : Sensors ι) (i : ι) (call : EnableCall) :
    s.enable i call = s.enableAs i (s.enabledAs call) := by
  cases call with
  | enableSharedFor =>
    simp only [enable, enableSharedFor, enabledAs]
    split <;> rfl
  | enableUniqueFor =>
    simp only [enable, enableUniqueFor, enabledAs]
    split <;> rfl
  | enableFor => rfl

theorem Settled.step (hs : s.Settled) (hc : s.Counted x) : (s.step x).Settled := by
  cases x with
  | enable i call =>
    simp only [Sensors.step]
    split
    · rename_i hp
      rw [enable_eq]
      exact hs.enableAs (s.enabledAs_defined call) (hc hp)
    · exact hs
  | register i => exact hs.register hc
  | disable i =>
    simp only [Sensors.step]
    split
    · rename_i hp
      exact hs.disable hp
    · exact hs
  | collect => exact hs.collectLk
  | regType as => exact hs.regType as

/-- A sensor that was handed a holder without being counted held it before. -/
theorem Settled.held_of_accounted (hs : s.Settled) {t : Sensors ι} (ht : t.Accounted)
    (hheld : t.held = Function.update s.held i (some h)) (hcount : t.scount h = s.scount h) :
    s.held i = some h := by
  by_contra hi
  have hlive : t.Live h := Or.inl ⟨i, by rw [hheld, Function.update_self]⟩
  have hexact : (s.scount h).toNat = holders s.held h + 1 := by
    rw [← hcount, ht.exact h hlive, hheld, holders_take hi]
  rw [hs.exact h] at hexact
  omega

/-- A sensor that has made a holder had let go of what it held. -/
theorem Settled.free_of_accounted (hs : s.Settled) (hp : s.pending i = .none)
    (ht : (s.make i as).Accounted) : s.held i = none := by
  cases hi : s.held i with
  | none => rfl
  | some g =>
    have hg : g ≠ s.made := fun he => hs.fresh i (he ▸ hi)
    have hmoved : some s.made ≠ some g := fun he => hg (Option.some.inj he).symm
    have hlive : (s.make i as).Live g := Or.inr (Or.inl (hs.listed i g hi hp))
    have hexact : (s.scount g).toNat + 1 = holders s.held g := by
      have ht : ((s.make i as).scount g).toNat = holders (s.make i as).held g := ht.exact g hlive
      simp only [Sensors.make, Function.update_of_ne hg] at ht
      rw [ht, holders_release hi hmoved]
    rw [hs.exact g] at hexact
    omega

theorem Settled.counted_of_accounted (hs : s.Settled) (ht : (s.step x).Accounted) :
    s.Counted x := by
  cases x with
  | enable i call =>
    intro hp
    rw [Sensors.step, if_pos hp, enable_eq] at ht
    cases has : s.enabledAs call with
    | none => trivial
    | shared =>
      change s.getSharedSensor = s.held i
      rw [has] at ht
      change (s.lookUp i).Accounted at ht
      unfold lookUp at ht
      split at ht
      · rename_i h hg
        rw [hg, hs.held_of_accounted ht rfl rfl]
      · rename_i hg
        rw [hg, hs.free_of_accounted hp ht]
    | unique =>
      rw [has] at ht
      exact hs.free_of_accounted hp ht
  | register i =>
    intro hp
    cases hg : s.getSharedSensor with
    | none => rfl
    | some h =>
      obtain ⟨hi, hr⟩ := hs.register_lost hp hg
      rw [Sensors.step, hr] at ht
      exact absurd (hs.held_of_accounted ht rfl rfl) hi
  | disable i => trivial
  | collect => trivial
  | regType as => trivial

/-- The counts stay exact, with all that rests on them, in exactly the runs whose steps are
all counted. -/
theorem counts_exact_iff (steps : List (SensorStep ι)) :
    (∀ pre post, steps = pre ++ post → ((sensors ι).run pre).Accounted) ↔
      (sensors ι).Throughout Counted steps :=
  Machine.always_iff_throughout (I := Settled) settled_initial (fun _ hs => hs.accounted)
    (fun _ _ hs hc => hs.step hc) (fun _ _ hs ht => hs.counted_of_accounted ht) steps

def bothEnabled : List (SensorStep (Fin 2)) :=
  [.regType .shared, .enable 0 .enableSharedFor, .register 0, .enable 1 .enableSharedFor]

/-- The second is not counted. When the first is disabled, the collector drops the sensor that
the second one still holds; when both are, the count wraps. -/
theorem second_sensor_uncounted :
    let s := (sensors (Fin 2)).run bothEnabled
    let left := (sensors (Fin 2)).run (bothEnabled ++ [.disable 0])
    let both := (sensors (Fin 2)).run (bothEnabled ++ [.disable 0, .disable 1])
    ¬ s.Accounted ∧ s.scount 0 = 1 ∧ holders s.held 0 = 2 ∧
      left.held 1 = some 0 ∧ left.anySensor 0 = false ∧
      left.activeShared = [0] ∧ left.collectLk.activeShared = [] ∧
      (both.scount 0).toNat = 2 ^ 64 - 1 := by
  refine ⟨?_, by decide +kernel, by decide +kernel, by decide +kernel, by decide +kernel,
    by decide +kernel, by decide +kernel, by decide +kernel⟩
  intro hs
  have hlive : ((sensors (Fin 2)).run bothEnabled).Live 0 := by decide +kernel
  exact absurd (hs.exact 0 hlive) (by decide +kernel)

end Sensors
end NostrServer.Telemetry
