import StabCircuit.Builder.Measure
import StabCircuit.Proofs.Circuit.Pieces
import StabCircuit.Proofs.Record.Tracking

/-!
# Calls that succeed

What a call on a builder has done when it succeeds: the instructions it appended and
the change of the tracker, call by call.
-/

namespace StabCircuit

/-- The index of a qubit, zero when it has none. -/
def indexIn (layout : OrderedMap Coord Nat) (q : Coord) : Nat := (layout.get? q).getD 0

namespace Build

variable {α β : Type} {b b' : Builder}

/-- What a call gives and the builder that it leaves behind. -/
def outcome (x : Build α) (b : Builder) : Except CircuitError α × Builder := x.run b

/-- The call succeeds with a value and leaves a builder behind. -/
def Gives (x : Build α) (b : Builder) (a : α) (b' : Builder) : Prop := outcome x b = (.ok a, b')

/-! ## Steps of a call -/

theorem gives_pure {a a' : α} : Gives (pure a) b a' b' ↔ a = a' ∧ b = b' := by
  have hrun : outcome (pure a) b = (.ok a, b) := rfl
  simp [Gives, hrun]

theorem not_gives_throw {e : CircuitError} {a : α} : ¬ Gives (throw e : Build α) b a b' := by
  have hrun : outcome (throw e : Build α) b = (.error e, b) := rfl
  simp [Gives, hrun]

/-- A call in two steps succeeds when one step does after the other. -/
theorem gives_bind {x : Build α} {f : α → Build β} {c : β} :
    Gives (x >>= f) b c b' ↔ ∃ a mid, Gives x b a mid ∧ Gives (f a) mid c b' := by
  have hrun : outcome (x >>= f) b = ExceptT.bindCont f (outcome x b).1 (outcome x b).2 := rfl
  unfold Gives
  rw [hrun]
  obtain ⟨result, mid⟩ := outcome x b
  cases result with
  | error e =>
    constructor
    · intro h
      cases h
    · rintro ⟨a, mid', h, -⟩
      cases h
  | ok a =>
    constructor
    · intro h
      exact ⟨a, mid, rfl, h⟩
    · rintro ⟨a', mid', h, h'⟩
      cases h
      exact h'

theorem gives_get {a : Builder} : Gives (get : Build Builder) b a b' ↔ b = a ∧ b = b' := by
  have hrun : outcome (get : Build Builder) b = (.ok b, b) := rfl
  simp [Gives, hrun]

theorem gives_modify {f : Builder → Builder} :
    Gives (modify f : Build Unit) b () b' ↔ f b = b' := by
  have hrun : outcome (modify f : Build Unit) b = (.ok (), f b) := rfl
  simp [Gives, hrun]

theorem gives_ask {f : Builder → Except CircuitError α} {a : α} :
    Gives (ask f) b a b' ↔ f b = .ok a ∧ b = b' := by
  have hlift : ∀ x : Except CircuitError α, outcome (ask.liftExcept x) b = (x, b) := by
    intro x
    cases x <;> rfl
  have hrun : outcome (ask f) b = outcome (ask.liftExcept (f b)) b := rfl
  simp [Gives, hrun, hlift]

theorem gives_append {name : String} {targets : List Target} {args : List Scalar} :
    Gives (append name targets args) b () b' ↔
      ∃ i, Instruction.make name targets args = .ok i ∧
        { b with circuit := b.circuit.push i } = b' := by
  unfold append
  rw [gives_bind]
  constructor
  · rintro ⟨circuit, mid, hask, hmodify⟩
    obtain ⟨hcircuit, rfl⟩ := gives_ask.1 hask
    obtain ⟨i, hi, rfl⟩ := map_eq_ok.1 hcircuit
    exact ⟨i, hi, gives_modify.1 hmodify⟩
  · rintro ⟨i, hi, rfl⟩
    exact ⟨b.circuit.push i, b, gives_ask.2 ⟨map_eq_ok.2 ⟨i, hi, rfl⟩, rfl⟩, gives_modify.2 rfl⟩

theorem gives_updateTracker {f : Tracker → Except CircuitError Tracker} :
    Gives (updateTracker f) b () b' ↔ ∃ t, f b.tracker = .ok t ∧ { b with tracker := t } = b' := by
  unfold updateTracker
  rw [gives_bind]
  constructor
  · rintro ⟨t, mid, hask, hmodify⟩
    obtain ⟨ht, rfl⟩ := gives_ask.1 hask
    exact ⟨t, ht, gives_modify.1 hmodify⟩
  · rintro ⟨t, ht, rfl⟩
    exact ⟨t, b, gives_ask.2 ⟨ht, rfl⟩, gives_modify.2 rfl⟩

theorem gives_forM_cons {f : α → Build Unit} {x : α} {xs : List α} :
    Gives ((x :: xs).forM f) b () b' ↔
      ∃ mid, Gives (f x) b () mid ∧ Gives (xs.forM f) mid () b' := by
  have hstep : (x :: xs).forM f = f x >>= fun _ => xs.forM f := rfl
  rw [hstep, gives_bind]
  constructor
  · rintro ⟨_, mid, h, h'⟩
    exact ⟨mid, h, h'⟩
  · rintro ⟨mid, h, h'⟩
    exact ⟨(), mid, h, h'⟩

/-- Calls that each go on from a builder, while an invariant lasts, by what they write, the keys
that they bind and those among these with results, go on from it by what they all do. -/
theorem gives_forM_composes {ε : Type}
    {R : Builder → Builder → List ε → List Key → List Key → Prop} {p : Builder → Prop}
    (hrefl : ∀ b, p b → R b b [] [] [])
    (htrans : ∀ {b₁ b₂ b₃ ws ws' keys keys' measured measured'}, R b₁ b₂ ws keys measured →
      R b₂ b₃ ws' keys' measured' → R b₁ b₃ (ws ++ ws') (keys ++ keys') (measured ++ measured'))
    {f : α → Build Unit} {q : α → Prop} {written : α → List ε} {keys measured : α → List Key}
    {xs : List α}
    (hstep : ∀ x ∈ xs, ∀ b b', p b → Gives (f x) b () b' →
      q x ∧ R b b' (written x) (keys x) (measured x) ∧ p b')
    (hb : p b) (h : Gives (xs.forM f) b () b') :
    (∀ x ∈ xs, q x) ∧ R b b' (xs.flatMap written) (xs.flatMap keys) (xs.flatMap measured) ∧
      p b' := by
  induction xs generalizing b with
  | nil =>
    obtain ⟨-, rfl⟩ := gives_pure.1 h
    exact ⟨by simp, hrefl b hb, hb⟩
  | cons x xs ih =>
    rw [List.forall_mem_cons] at hstep
    obtain ⟨mid, hx, hxs⟩ := gives_forM_cons.1 h
    obtain ⟨hq, hfirst, hmid⟩ := hstep.1 b mid hb hx
    obtain ⟨hqs, hrest, hlast⟩ := ih hstep.2 hmid hxs
    exact ⟨List.forall_mem_cons.2 ⟨hq, hqs⟩, htrans hfirst hrest, hlast⟩

/-- Calls that append what is known from the layout and the record append all of it. -/
theorem gives_forM_emits {f : α → Build Unit} {layout : OrderedMap Coord Nat}
    {t : Tracker} {g : α → List Instruction} {p : α → Prop} {items : List α}
    (hf : ∀ x ∈ items, ∀ c c', c.layout = layout → c.tracker = t → Gives (f x) c () c' →
      p x ∧ { c with circuit := (g x).foldl Circuit.push c.circuit } = c')
    (hlayout : b.layout = layout) (ht : b.tracker = t) (h : Gives (items.forM f) b () b') :
    (∀ x ∈ items, p x) ∧
      { b with circuit := (items.flatMap g).foldl Circuit.push b.circuit } = b' := by
  induction items generalizing b with
  | nil =>
    obtain ⟨-, rfl⟩ := gives_pure.1 h
    exact ⟨by simp, rfl⟩
  | cons x items ih =>
    rw [List.forall_mem_cons] at hf
    obtain ⟨mid, hx, hrest⟩ := gives_forM_cons.1 h
    obtain ⟨hp, hmid⟩ := hf.1 b mid hlayout ht hx
    have hkept : mid.layout = layout ∧ mid.tracker = t := by
      rw [← hmid]
      exact ⟨hlayout, ht⟩
    obtain ⟨hps, hlast⟩ := ih hf.2 hkept.1 hkept.2 hrest
    refine ⟨List.forall_mem_cons.2 ⟨hp, hps⟩, ?_⟩
    rw [← hlast, ← hmid, List.flatMap_cons, List.foldl_append]

/-- Calls that each append known instructions append all of them. -/
theorem gives_forM_pushes {f : α → Build Unit} {g : α → List Instruction}
    {p : Instruction → Prop} {xs : List α}
    (hf : ∀ x ∈ xs, ∀ b b', Gives (f x) b () b' →
      (∀ i ∈ g x, p i) ∧ { b with circuit := (g x).foldl Circuit.push b.circuit } = b')
    (h : Gives (xs.forM f) b () b') :
    (∀ i ∈ xs.flatMap g, p i) ∧
      { b with circuit := (xs.flatMap g).foldl Circuit.push b.circuit } = b' := by
  obtain ⟨hps, hlast⟩ := gives_forM_emits (fun x hx c c' _ _ => hf x hx c c') rfl rfl h
  exact ⟨List.forall_mem_flatMap.2 hps, hlast⟩

/-- Calls that only read give what each reads. -/
theorem gives_mapM_reads {f : α → Build β} {g : α → β} {xs : List α} {ys : List β}
    (hf : ∀ x ∈ xs, ∀ y b', Gives (f x) b y b' → y = g x ∧ b = b')
    (h : Gives (xs.mapM f) b ys b') : ys = xs.map g ∧ b = b' := by
  induction xs generalizing ys b' with
  | nil =>
    obtain ⟨rfl, rfl⟩ := gives_pure.1 h
    exact ⟨rfl, rfl⟩
  | cons x xs ih =>
    rw [List.forall_mem_cons] at hf
    rw [List.mapM_cons] at h
    obtain ⟨y, mid, hy, h⟩ := gives_bind.1 h
    obtain ⟨rfl, rfl⟩ := hf.1 y mid hy
    obtain ⟨rest, mid, hrest, h⟩ := gives_bind.1 h
    obtain ⟨rfl, rfl⟩ := ih hf.2 hrest
    obtain ⟨rfl, rfl⟩ := gives_pure.1 h
    exact ⟨rfl, rfl⟩

/-! ## Calls -/

theorem eq_indexIn_of_indexOf {gate : Option String} {q : Coord} {index : Nat}
    (h : b.indexOf gate q = .ok index) : index = indexIn b.layout q := by
  unfold Builder.indexOf at h
  split at h
  · next found hfound =>
    cases h
    simp [indexIn, hfound]
  · cases h

theorem eq_map_indexIn {g : Gate} {qubits : List Coord} {indices : List Nat}
    (h : b.indicesOf g qubits = .ok indices) : indices = qubits.map (indexIn b.layout) :=
  eq_map_of_mapM (fun _ _ _ hindex => eq_indexIn_of_indexOf hindex) h

theorem isSome_of_mapM_indexOf {gate : Option String} {qubits : List Coord} {indices : List Nat}
    (h : qubits.mapM (b.indexOf gate) = .ok indices) :
    ∀ q ∈ qubits, (b.layout.get? q).isSome = true := by
  induction qubits generalizing indices with
  | nil => simp
  | cons q qubits ih =>
    obtain ⟨index, hindex, h⟩ := bind_eq_ok.1 (List.mapM_cons.symm.trans h)
    obtain ⟨rest, hrest, -⟩ := bind_eq_ok.1 h
    refine List.forall_mem_cons.2 ⟨?_, ih hrest⟩
    unfold Builder.indexOf at hindex
    split at hindex
    · next found => simp [found]
    · cases hindex

theorem isSome_of_indicesOf {g : Gate} {qubits : List Coord} {indices : List Nat}
    (h : b.indicesOf g qubits = .ok indices) : ∀ q ∈ qubits, (b.layout.get? q).isSome = true :=
  isSome_of_mapM_indexOf h

theorem isPlain_of_make {g : Gate} (hsilent : g.isSilent = true) {indices : List Nat}
    {args : List Scalar} {i : Instruction}
    (h : Instruction.make g.name (indices.map .qubit) args = .ok i) : i.IsPlain := by
  obtain ⟨g', hg', hfault, rfl⟩ := Instruction.isChecked_of_make h
  obtain rfl : g = g' := by
    rw [Gate.lookup_name] at hg'
    exact Except.ok.inj hg'
  exact ⟨g, indices, rfl, rfl, hfault, hsilent⟩

/-- The builder is as before, but for a plain instruction that may have been appended. -/
def AppendsPlain (b b' : Builder) : Prop :=
  b = b' ∨ ∃ i : Instruction, i.IsPlain ∧ { b with circuit := b.circuit.push i } = b'

theorem appendsPlain_of_emission {g : Gate} (hsilent : g.isSilent = true) {qubits : List Coord}
    {args : List Scalar} {nothing : Bool}
    (h : Gives (if nothing = true then pure () else do
      let indices ← ask fun b => b.indicesOf g qubits
      append g.name (indices.map .qubit) args) b () b') : AppendsPlain b b' := by
  split at h
  · exact .inl (gives_pure.1 h).2
  · obtain ⟨indices, mid, hask, h⟩ := gives_bind.1 h
    obtain ⟨-, rfl⟩ := gives_ask.1 hask
    obtain ⟨i, hi, hb'⟩ := gives_append.1 h
    exact .inr ⟨i, isPlain_of_make hsilent hi, hb'⟩

theorem gate_spec {name : String} {qubits : List Coord} {args : List Scalar}
    (h : Gives (gate name qubits args) b () b') : AppendsPlain b b' := by
  unfold gate at h
  obtain ⟨g, mid, hask, h⟩ := gives_bind.1 h
  obtain ⟨-, rfl⟩ := gives_ask.1 hask
  have hsilent : g.kind = .clifford1 ∨ g.kind = .reset ∨ g.kind = .noise1 → g.isSilent = true := by
    cases g <;> simp [Gate.kind] <;> rfl
  dsimp only at h
  split at h
  · next hkind => exact appendsPlain_of_emission (hsilent (.inl hkind)) h
  · next hkind => exact appendsPlain_of_emission (hsilent (.inr (.inl hkind))) h
  · next hkind => exact appendsPlain_of_emission (hsilent (.inr (.inr hkind))) h
  · obtain ⟨_, _, hthrow, -⟩ := gives_bind.1 h
    exact absurd hthrow not_gives_throw

theorem isSilent_of_isPairwise {g : Gate} (h : g.kind.isPairwise = true) : g.isSilent = true := by
  revert h
  cases g <;> simp [Gate.kind, GateKind.isPairwise] <;> rfl

theorem isPairwise_arrangePairs {g : Gate} (h : g.kind.isPairwise = true)
    (pairs : List (Coord × Coord)) : (arrangePairs g pairs).1.kind.isPairwise = true := by
  unfold arrangePairs
  cases hreversed : g.reversed? with
  | none => exact h
  | some preferred =>
    unfold Gate.reversed? at hreversed
    split at hreversed <;> cases hreversed <;> rfl

theorem gate2_spec {name : String} {pairs : List (Coord × Coord)}
    (h : Gives (gate2 name pairs) b () b') : AppendsPlain b b' := by
  unfold gate2 at h
  obtain ⟨g, mid, hask, h⟩ := gives_bind.1 h
  obtain ⟨-, rfl⟩ := gives_ask.1 hask
  dsimp only at h
  split at h
  · obtain ⟨_, _, hthrow, -⟩ := gives_bind.1 h
    exact absurd hthrow not_gives_throw
  · next hkind =>
    have hrequested : g.kind.isPairwise = true := by simpa using hkind
    have hpairwise := isPairwise_arrangePairs hrequested pairs
    exact appendsPlain_of_emission (isSilent_of_isPairwise hpairwise) h

/-- Room for more results is there, and nothing changes. -/
theorem gives_reserve {more : Nat} :
    Gives (reserve more) b () b' ↔ b.tracker.count + more < Text.longSize ∧ b = b' := by
  unfold reserve
  constructor
  · intro h
    obtain ⟨_, mid, hask, h⟩ := gives_bind.1 h
    obtain ⟨hcount, rfl⟩ := gives_ask.1 hask
    exact ⟨(Count.add_eq_ok.1 hcount).1, (gives_pure.1 h).2⟩
  · rintro ⟨hfits, rfl⟩
    exact gives_bind.2 ⟨_, b, gives_ask.2 ⟨Count.add_eq_ok.2 ⟨hfits, rfl⟩, rfl⟩,
      gives_pure.2 ⟨rfl, rfl⟩⟩

theorem gives_forM_record {keys : List Key}
    (h : Gives (keys.forM fun key => updateTracker fun t => t.record key) b () b') :
    ∃ t, b.tracker.recordAll keys = .ok t ∧ { b with tracker := t } = b' := by
  induction keys generalizing b with
  | nil =>
    obtain ⟨-, rfl⟩ := gives_pure.1 h
    exact ⟨b.tracker, rfl, rfl⟩
  | cons key keys ih =>
    obtain ⟨mid, hkey, hkeys⟩ := gives_forM_cons.1 h
    obtain ⟨t, ht, rfl⟩ := gives_updateTracker.1 hkey
    obtain ⟨t', ht', rfl⟩ := ih hkeys
    refine ⟨t', ?_, rfl⟩
    rw [Tracker.recordAll, ht]
    exact ht'

/-- A measurement appends one instruction over its qubits in canonical order and records their keys
in this order. -/
theorem measure_spec {qubits : List Coord} {basis : Basis} {keyOf : Coord → Key} {layer : String}
    (h : Gives (measure qubits basis keyOf layer) b () b') :
    (Coord.sort qubits = [] ∧ b = b') ∨
      ∃ i t, Instruction.make (Gate.measure basis).name
          (((Coord.sort qubits).map (indexIn b.layout)).map .qubit) [] = .ok i ∧
        b.tracker.recordAll ((Coord.sort qubits).map fun q => .atLayer (keyOf q) layer) = .ok t ∧
        { b with circuit := b.circuit.push i, tracker := t } = b' := by
  unfold measure at h
  dsimp only at h
  split at h
  · next hempty => exact .inl ⟨List.isEmpty_iff.1 hempty, (gives_pure.1 h).2⟩
  · obtain ⟨indices, mid, hask, h⟩ := gives_bind.1 h
    obtain ⟨hindices, rfl⟩ := gives_ask.1 hask
    obtain ⟨_, mid, hget, h⟩ := gives_bind.1 h
    obtain ⟨rfl, rfl⟩ := gives_get.1 hget
    split at h
    · obtain ⟨_, _, hthrow, -⟩ := gives_bind.1 h
      exact absurd hthrow not_gives_throw
    · obtain ⟨_, mid, hreserve, h⟩ := gives_bind.1 h
      obtain ⟨-, rfl⟩ := gives_reserve.1 hreserve
      obtain ⟨_, mid, happend, h⟩ := gives_bind.1 h
      obtain ⟨i, hi, rfl⟩ := gives_append.1 happend
      obtain ⟨t, ht, rfl⟩ := gives_forM_record h
      rw [eq_map_indexIn hindices] at hi
      exact .inr ⟨i, t, hi, ht, rfl⟩

theorem known_of_measure {qubits : List Coord} {basis : Basis} {keyOf : Coord → Key}
    {layer : String} (h : Gives (measure qubits basis keyOf layer) b () b') :
    ∀ q ∈ Coord.sort qubits, (b.layout.get? q).isSome = true := by
  unfold measure at h
  dsimp only at h
  split at h
  · next hempty =>
    rw [List.isEmpty_iff.1 hempty]
    simp
  · obtain ⟨indices, mid, hask, -⟩ := gives_bind.1 h
    exact isSome_of_indicesOf (gives_ask.1 hask).1

/-- The measurement of a product appends one instruction and records its key; the identity binds
its key to no results. -/
theorem measureProduct_spec {product : PauliProduct} {key : Key} {flip : Option Scalar}
    (h : Gives (measureProduct product key flip) b () b') :
    (product.isIdentity = true ∧
      ∃ t, b.tracker.recordGroup [] key = .ok t ∧ { b with tracker := t } = b') ∨
    (product.isIdentity = false ∧
      ∃ i t, Instruction.make Gate.measureProduct.name
          (Target.joinProduct (product.terms.map fun term =>
            .pauli term.2 (indexIn b.layout term.1))) flip.toList = .ok i ∧
        b.tracker.record key = .ok t ∧
        { b with circuit := b.circuit.push i, tracker := t } = b') := by
  unfold measureProduct at h
  dsimp only at h
  split at h
  · next hidentity => exact .inl ⟨hidentity, gives_updateTracker.1 h⟩
  · next hidentity =>
    refine .inr ⟨by simpa using hidentity, ?_⟩
    obtain ⟨_, mid, hget, h⟩ := gives_bind.1 h
    obtain ⟨rfl, rfl⟩ := gives_get.1 hget
    split at h
    · obtain ⟨_, _, hthrow, -⟩ := gives_bind.1 h
      exact absurd hthrow not_gives_throw
    · obtain ⟨factors, mid, hfactors, h⟩ := gives_bind.1 h
      have hreads : factors = product.terms.map
          (fun term => Target.pauli term.2 (indexIn b.layout term.1)) ∧ b = mid := by
        refine gives_mapM_reads (fun term _ target mid hterm => ?_) hfactors
        obtain ⟨index, mid, hask, hterm⟩ := gives_bind.1 hterm
        obtain ⟨hindex, rfl⟩ := gives_ask.1 hask
        obtain ⟨rfl, rfl⟩ := gives_pure.1 hterm
        rw [eq_indexIn_of_indexOf hindex]
        exact ⟨rfl, rfl⟩
      obtain ⟨rfl, rfl⟩ := hreads
      obtain ⟨_, mid, hreserve, h⟩ := gives_bind.1 h
      obtain ⟨-, rfl⟩ := gives_reserve.1 hreserve
      obtain ⟨_, mid, happend, h⟩ := gives_bind.1 h
      obtain ⟨i, hi, rfl⟩ := gives_append.1 happend
      obtain ⟨t, ht, rfl⟩ := gives_updateTracker.1 h
      exact ⟨i, t, hi, ht, rfl⟩

/-- The keys of a detector: with `ignoreMissing`, those that are bound. -/
def detectorKeys (t : Tracker) (keys : List Key) (options : DetectorOptions) : List Key :=
  keys.filter fun k => !options.ignoreMissing || t.contains k

theorem detector_spec {keys : List Key} {options : DetectorOptions}
    (h : Gives (detector keys options) b () b') :
    ∃ targets args i, b.tracker.recordTargets (detectorKeys b.tracker keys options) = .ok targets ∧
      options.coordinates = .ok args ∧ Instruction.make Gate.detector.name targets args = .ok i ∧
      { b with circuit := b.circuit.push i } = b' := by
  unfold detector at h
  obtain ⟨args, mid, hask, h⟩ := gives_bind.1 h
  obtain ⟨hargs, rfl⟩ := gives_ask.1 hask
  obtain ⟨_, mid, hget, h⟩ := gives_bind.1 h
  obtain ⟨rfl, rfl⟩ := gives_get.1 hget
  obtain ⟨targets, mid, hask, h⟩ := gives_bind.1 h
  obtain ⟨htargets, rfl⟩ := gives_ask.1 hask
  obtain ⟨i, hi, hb'⟩ := gives_append.1 h
  exact ⟨targets, args, i, htargets, hargs, hi, hb'⟩

theorem includeObservable_spec {keys : List Key} {index : Nat}
    (h : Gives (includeObservable keys index) b () b') :
    ∃ targets, b.tracker.recordTargets keys = .ok targets ∧
      ((targets = [] ∧ b = b') ∨
        targets ≠ [] ∧ ∃ i, Instruction.make Gate.observableInclude.name targets
            [Scalar.ofNat index] = .ok i ∧
          { b with circuit := b.circuit.push i } = b') := by
  unfold includeObservable at h
  obtain ⟨targets, mid, hask, h⟩ := gives_bind.1 h
  obtain ⟨htargets, rfl⟩ := gives_ask.1 hask
  refine ⟨targets, htargets, ?_⟩
  split at h
  · next hempty => exact .inl ⟨List.isEmpty_iff.1 hempty, (gives_pure.1 h).2⟩
  · next hempty => exact .inr ⟨by simpa using hempty, gives_append.1 h⟩

/-- A Pauli on a qubit, controlled by a classical bit. -/
def controlledPauli (basis : Basis) (control : Target) (index : Nat) : Instruction :=
  { name := (Gate.controlled .z basis).name, targets := [control, .qubit index], args := [] }

theorem eq_controlledPauli_of_make {basis : Basis} {control : Target} {index : Nat}
    {i : Instruction}
    (h : Instruction.make (Gate.controlled .z basis).name [control, .qubit index] [] = .ok i) :
    i = controlledPauli basis control index := by
  obtain ⟨g, hg, -, rfl⟩ := Instruction.isChecked_of_make h
  rw [Gate.lookup_name] at hg
  cases hg
  rfl

/-- Paulis on qubits, each controlled by every one of the classical bits. -/
def feedback (basis : Basis) (controls : List Target) (indices : List Nat) : List Instruction :=
  controls.flatMap fun control => indices.map fun index => controlledPauli basis control index

theorem classicalPaulis_spec {keys : List Key} {qubits : List Coord} {basis : Basis}
    (h : Gives (classicalPaulis keys qubits basis) b () b') :
    ∃ records, b.tracker.recordTargets keys = .ok records ∧
      (∀ i ∈ feedback basis records ((Coord.sort qubits).map (indexIn b.layout)), i.IsChecked) ∧
      { b with circuit := (feedback basis records
          ((Coord.sort qubits).map (indexIn b.layout))).foldl Circuit.push b.circuit } = b' := by
  unfold classicalPaulis at h
  obtain ⟨indices, mid, hask, h⟩ := gives_bind.1 h
  obtain ⟨hindices, rfl⟩ := gives_ask.1 hask
  obtain ⟨records, mid, hask, h⟩ := gives_bind.1 h
  obtain ⟨hrecords, rfl⟩ := gives_ask.1 hask
  refine ⟨records, hrecords, ?_⟩
  rw [eq_map_indexIn hindices] at h
  refine gives_forM_pushes (fun record _ b₁ b₂ h => ?_) h
  have hone : ∀ index ∈ (Coord.sort qubits).map (indexIn b.layout), ∀ b₁ b₂,
      Gives (append (Gate.controlled .z basis).name [record, .qubit index] []) b₁ () b₂ →
      (∀ i ∈ [controlledPauli basis record index], i.IsChecked) ∧
        { b₁ with circuit := [controlledPauli basis record index].foldl Circuit.push b₁.circuit } =
          b₂ := by
    intro index _ b₁ b₂ happend
    obtain ⟨i, hi, rfl⟩ := gives_append.1 happend
    obtain rfl := eq_controlledPauli_of_make hi
    exact ⟨List.forall_mem_singleton.2 (.of_make hi), rfl⟩
  have hall := gives_forM_pushes hone h
  rw [← List.map_eq_flatMap] at hall
  exact hall

theorem appendRepeated_spec {body : Circuit} {count : Nat}
    (h : Gives (appendRepeated body count) b () b') :
    ∃ t, b.tracker.repeatRecent (Circuit.measurementCount body) count = .ok t ∧
      { b with circuit := b.circuit.pushRepeat count body, tracker := t } = b' := by
  unfold appendRepeated at h
  obtain ⟨_, mid, hupdate, h⟩ := gives_bind.1 h
  obtain ⟨t, ht, rfl⟩ := gives_updateTracker.1 hupdate
  exact ⟨t, ht, gives_modify.1 h⟩

end Build

end StabCircuit
