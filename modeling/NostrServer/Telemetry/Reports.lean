import NostrServer.Telemetry.Exposition
import NostrServer.Telemetry.Sensors

namespace NostrServer.Telemetry

variable {fmt : FloatFormat}

theorem value_in_points (now : Timestamp) (prev : Str) {points : List (MetricPointTimestamp fmt)}
    (hp : p ∈ points) :
    ∀ l ∈ renderValue (if p.1.ts = Timestamp.min then now else p.1.ts) p.1,
      l ∈ renderPoints now prev points := by
  intro l hl
  induction points generalizing prev with
  | nil => cases hp
  | cons q points ih =>
    rw [renderPoints]
    rcases List.mem_cons.mp hp with rfl | hp
    · apply List.mem_append_left
      apply List.mem_append_left
      exact List.mem_append_right _ hl
    · exact List.mem_append_right _ (ih _ hp)

/-- The samples of every point that is emitted are in the output. -/
theorem value_collected {points : List (MetricPointTimestamp fmt)}
    (h : collectLk now start points = .ok lines) (hp : p ∈ points) :
    ∀ l ∈ renderValue (if p.1.ts = Timestamp.min then now else p.1.ts) p.1, l ∈ lines := by
  obtain ⟨uptime, rfl⟩ := collectLk_ok h
  apply value_in_points
  apply List.mem_append_left
  exact (List.mergeSort_perm points pointLe).mem_iff.mpr hp

namespace Sensors
variable {ι : Type}

/-- The points of a collection, where `reader` is what the reader of a holder emits. -/
def emitted (s : Sensors ι) (reader : Nat → List (MetricPointTimestamp fmt)) :
    List (MetricPointTimestamp fmt) :=
  s.activeUnique.flatMap reader ++ s.activeShared.flatMap reader

variable [Fintype ι] [DecidableEq ι]

/-- While the steps of a run are counted, every enabled sensor is in every report. -/
theorem enabled_reported {steps : List (SensorStep ι)}
    (hsteps : (sensors ι).Throughout Counted steps)
    (hheld : ((sensors ι).run steps).held i = some h)
    (henabled : ((sensors ι).run steps).pending i = .none)
    (reader : Nat → List (MetricPointTimestamp fmt))
    (hreport : Telemetry.collectLk now start (((sensors ι).run steps).emitted reader) = .ok lines)
    (hpoint : p ∈ reader h) :
    ∀ l ∈ renderValue (if p.1.ts = Timestamp.min then now else p.1.ts) p.1, l ∈ lines := by
  have hs : ((sensors ι).run steps).Settled :=
    Machine.run_invariant settled_initial (fun _ _ hs hc => hs.step hc) hsteps
  apply value_collected hreport
  apply List.mem_append_right
  exact List.mem_flatMap.mpr ⟨h, hs.listed i h hheld henabled, hpoint⟩

def oneEnabled : List (SensorStep (Fin 1)) :=
  [.regType .shared, .enable 0 .enableSharedFor, .register 0]

def sensorPoint : MetricPointTimestamp noFloats :=
  ({ definition := { type := .gauge, identifier := str "clients" },
     value := .scalar (.integer 3) }, madeAt)

theorem clients_reported : ∃ lines, Telemetry.collectLk collectedAt madeAt
    (((sensors (Fin 1)).run oneEnabled).emitted (fun _ => [sensorPoint])) = .ok lines ∧
    ∀ l ∈ renderValue collectedAt sensorPoint.1, l ∈ lines := by
  have hcounted : (sensors (Fin 1)).Throughout Counted oneEnabled := by
    have hfree : ((sensors (Fin 1)).run [.regType .shared]).getSharedSensor =
        ((sensors (Fin 1)).run [.regType .shared]).held 0 := by decide +kernel
    have hfirst : ((sensors (Fin 1)).run
        [.regType .shared, .enable 0 .enableSharedFor]).getSharedSensor = none := by decide +kernel
    exact ((Machine.throughout_nil.snoc trivial).snoc (fun _ => hfree)).snoc (fun _ => hfirst)
  obtain ⟨lines, hlines⟩ : ∃ lines, Telemetry.collectLk collectedAt madeAt
      (((sensors (Fin 1)).run oneEnabled).emitted (fun _ => [sensorPoint])) = .ok lines := ⟨_, rfl⟩
  have hheld : ((sensors (Fin 1)).run oneEnabled).held 0 = some 0 := by decide +kernel
  have hsettled : ((sensors (Fin 1)).run oneEnabled).pending 0 = .none := by decide +kernel
  exact ⟨lines, hlines, enabled_reported hcounted hheld hsettled _ hlines
    (List.mem_singleton_self sensorPoint)⟩

end Sensors
end NostrServer.Telemetry
