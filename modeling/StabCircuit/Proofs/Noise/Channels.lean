import StabCircuit.Noise.Injection
import StabCircuit.Proofs.Circuit.Unrolled
import StabCircuit.Proofs.Support.OrderedMaps
import StabCircuit.Proofs.Support.Results

/-!
# Channels of a noise model

A table of rules that passes its check names error channels only.
-/

namespace StabCircuit

/-- Whether a name is that of an error channel. -/
def IsChannelName (name : String) : Prop :=
  ∃ g : Gate, Gate.lookup name = .ok g ∧ g.kind.isNoise = true

theorem isChannelName_name {g : Gate} (h : g.kind.isNoise = true) : IsChannelName g.name :=
  ⟨g, Gate.lookup_name g, h⟩

theorem isChannelName_of_validateChannel {name : String} {p : Scalar}
    (h : NoiseRule.validateChannel name p = .ok ()) : IsChannelName name := by
  obtain ⟨g, hg, hrest⟩ := bind_eq_ok.1 h
  refine ⟨g, hg, ?_⟩
  split at hrest
  · obtain ⟨_, hfault, -⟩ := bind_eq_ok.1 hrest
    cases hfault
  · next hkind => simpa using hkind

/-- The channels of a rule are error channels. -/
def NoiseRule.IsValid (r : NoiseRule) : Prop := ∀ entry ∈ r.after.entries, IsChannelName entry.1

theorem NoiseRule.isValid_of_validate {r : NoiseRule} (h : r.validate = .ok ()) : r.IsValid := by
  intro entry hentry
  obtain ⟨_, -, hchannels⟩ := bind_eq_ok.1 h
  exact isChannelName_of_validateChannel (forM_eq_ok.1 hchannels entry hentry)

namespace NoiseModel

/-- The rules of a model. -/
def rules (m : NoiseModel) : List NoiseRule :=
  m.gateRules.values ++ m.measureRules.values ++ m.tickNoise.toList ++
    m.anyMeasurement.toList ++ m.anyClifford1.toList ++ m.anyClifford2.toList

/-- The channels of all rules are error channels. -/
def IsValid (m : NoiseModel) : Prop := ∀ r ∈ m.rules, r.IsValid

/-- A model that passes its check is valid. -/
theorem isValid_of_validate {m : NoiseModel} (h : m.validate = .ok ()) : m.IsValid := by
  obtain ⟨_, -, h⟩ := bind_eq_ok.1 h
  obtain ⟨_, -, h⟩ := bind_eq_ok.1 h
  obtain ⟨_, -, h⟩ := bind_eq_ok.1 h
  obtain ⟨_, -, h⟩ := bind_eq_ok.1 h
  intro r hr
  exact NoiseRule.isValid_of_validate (forM_eq_ok.1 h r hr)

theorem mem_values_of_gateRule? {m : NoiseModel} {name : String} {r : NoiseRule}
    (h : m.gateRule? name = some r) : r ∈ m.gateRules.values := by
  unfold gateRule? at h
  split at h
  · next rule hget =>
    cases h
    exact OrderedMap.mem_values_of_get? hget
  · obtain ⟨entry, hentry, rfl⟩ := Option.map_eq_some_iff.1 h
    exact List.mem_map.2 ⟨entry, List.mem_of_find?_eq_some hentry, rfl⟩

theorem mem_rules_of_wildcard? {m : NoiseModel} {kind : GateKind} {r : NoiseRule}
    (h : m.wildcard? kind = some r) : r ∈ m.rules := by
  cases kind <;> simp [wildcard?] at h <;> simp [rules, h]

/-- The rule for a piece is a rule of the model. -/
theorem mem_rules_of_ruleFor {m : NoiseModel} {piece : Instruction} {r : NoiseRule}
    (h : m.ruleFor piece = .rule r) : r ∈ m.rules := by
  unfold ruleFor at h
  split at h
  · cases h
  · dsimp only at h
    split at h
    · next rule hrule =>
      cases h
      rcases Option.or_eq_some_iff.1 hrule with hrule | ⟨-, hbases⟩
      · rcases Option.or_eq_some_iff.1 hrule with hname | ⟨-, hkind⟩
        · simp [rules, mem_values_of_gateRule? hname]
        · exact mem_rules_of_wildcard? hkind
      · obtain ⟨bases, -, hget⟩ := Option.bind_eq_some_iff.1 hbases
        simp [rules, OrderedMap.mem_values_of_get? hget]
    · cases h

theorem mem_rules_of_tickNoise {m : NoiseModel} {r : NoiseRule} (h : m.tickNoise = some r) :
    r ∈ m.rules := by
  simp [rules, h]

end NoiseModel

end StabCircuit
