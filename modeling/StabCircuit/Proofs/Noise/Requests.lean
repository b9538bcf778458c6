import StabCircuit.Proofs.Noise.Injection

/-!
# The channels a moment requests

The rules for the pieces of a moment and the noise of the background request
applications of error channels to qubits.  The applications of rules are gathered by
name and strength before they are written, so that those of one channel at one
strength may be written as one.  Their qubits, and for two-qubit channels their pairs
of neighbours, are those of the requests.
-/

namespace StabCircuit

instance : Std.LawfulEqOrd ChannelKey where
  eq_of_compare {a b} h := by
    have hboth : compare a.name b.name = .eq ∧ compare a.strength.rank b.strength.rank = .eq :=
      Ordering.then_eq_eq.1 h
    have hname : a.name = b.name := Std.LawfulEqOrd.eq_of_compare hboth.1
    have hstrength : a.strength = b.strength :=
      Scalar.eq_of_rank_eq (Std.LawfulEqOrd.eq_of_compare hboth.2)
    cases a
    cases b
    simp_all

namespace NoiseContext

/-! ## Applications -/

/-- An error channel with its strength, applied to qubits. -/
structure Application where
  /-- The channel. -/
  gate : Gate
  /-- The probability. -/
  strength : Scalar
  /-- The qubits in order. -/
  qubits : List Nat
deriving DecidableEq

namespace Application

/-- The instruction that applies the channel. -/
def written (a : Application) : Instruction := .onQubits a.gate a.qubits [a.strength]

/-- The application can be written, has a positive strength and is one of an error channel. -/
structure IsSound (a : Application) : Prop where
  checked : a.written.IsChecked
  noise : a.gate.kind.isNoise = true
  positive : (0 : Scalar).numLt a.strength = true

end Application

/-- What the applications of a channel at a strength show of their qubits. -/
def shown {β : Type} (view : List Nat → List β) (g : Gate) (p : Scalar)
    (as : List Application) : List β :=
  as.flatMap fun a => if a.gate = g ∧ a.strength = p then view a.qubits else []

theorem shown_append {β : Type} (view : List Nat → List β) (g : Gate) (p : Scalar)
    (as bs : List Application) :
    shown view g p (as ++ bs) = shown view g p as ++ shown view g p bs :=
  List.flatMap_append

/-- The operations come about by writing applications. -/
def Writes (as : List Application) (done out : List Operation) : Prop :=
  (∀ a ∈ as, a.IsSound) ∧
    out = (as.map Application.written).foldl Circuit.pushReversed done

theorem writes_nil (done : List Operation) : Writes [] done done := ⟨by simp, rfl⟩

theorem Writes.trans {as bs : List Application} {done mid out : List Operation}
    (h : Writes as done mid) (h' : Writes bs mid out) : Writes (as ++ bs) done out := by
  obtain ⟨has, rfl⟩ := h
  obtain ⟨hbs, rfl⟩ := h'
  refine ⟨List.forall_mem_append.2 ⟨has, hbs⟩, ?_⟩
  rw [List.map_append, List.foldl_append]

/-- The application that a name, a strength and qubits ask for, if the name is one of a gate. -/
def application? (name : String) (p : Scalar) (qubits : List Nat) : Option Application :=
  (Gate.ofName? name).map fun g => ⟨g, p, qubits⟩

theorem writes_of_appendChannel {done out : List Operation} {channel : String}
    {qubits : List Nat} {p : Scalar} (hname : IsChannelName channel)
    (hp : (0 : Scalar).numLt p = true) (h : appendChannel done channel qubits p = .ok out) :
    Writes (application? channel p qubits).toList done out := by
  obtain ⟨j, hj, rfl⟩ := map_eq_ok.1 h
  have hmake := lift_eq_ok.1 hj
  have hchecked := Instruction.IsChecked.of_make hmake
  obtain ⟨g, hg, -, rfl⟩ := Instruction.isChecked_of_make hmake
  obtain ⟨g', hg', hnoise⟩ := hname
  obtain rfl : g = g' := by
    rw [hg] at hg'
    exact Except.ok.inj hg'
  rw [application?, Gate.ofName?_of_lookup hg, Option.map_some, Option.toList_some]
  exact ⟨List.forall_mem_singleton.2 ⟨hchecked, hnoise, hp⟩, rfl⟩

/-- The applications gathered in a moment. -/
def gathered (m : Moment) : List Application :=
  m.after.entries.flatMap fun entry =>
    (application? entry.1.name entry.1.strength entry.2).toList

/-- The channels gathered in a moment are error channels of positive strength. -/
def GathersChannels (m : Moment) : Prop :=
  ∀ entry ∈ m.after.entries,
    IsChannelName entry.1.name ∧ (0 : Scalar).numLt entry.1.strength = true

theorem writes_of_appendCollected {entries : List (ChannelKey × List Nat)}
    {done out : List Operation}
    (hentries : ∀ entry ∈ entries,
      IsChannelName entry.1.name ∧ (0 : Scalar).numLt entry.1.strength = true)
    (h : appendCollected done entries = .ok out) :
    Writes (entries.flatMap fun entry =>
      (application? entry.1.name entry.1.strength entry.2).toList) done out := by
  induction entries generalizing done with
  | nil =>
    cases h
    exact writes_nil _
  | cons entry entries ih =>
    obtain ⟨mid, hmid, hrest⟩ := bind_eq_ok.1 h
    rw [List.forall_mem_cons] at hentries
    rw [List.flatMap_cons]
    exact (writes_of_appendChannel hentries.1.1 hentries.1.2 hmid).trans (ih hentries.2 hrest)

/-! ## Requests -/

/-- The applications that a table requests on qubits: one for each entry of positive strength. -/
def requestedBy (entries : List (String × Scalar)) (qubits : List Nat) : List Application :=
  entries.flatMap fun entry =>
    if (0 : Scalar).numLt entry.2 then (application? entry.1 entry.2 qubits).toList else []

/-- The applications requested for a piece. -/
def requestedFor (ctx : NoiseContext) (piece : Instruction) : List Application :=
  if piece.qubits.any fun q => ctx.immune.contains q then []
  else
    match ctx.model.ruleFor piece with
    | .rule rule => requestedBy rule.after.entries piece.qubits
    | .missing | .exempt => []

/-- The depolarization requested on idling or waiting qubits. -/
def requestedIdle (p : Scalar) (qubits : List Nat) : List Application :=
  if (0 : Scalar).numLt p && !qubits.isEmpty then [⟨.depolarize1, p, qubits⟩] else []

/-- The applications requested by the noise of every moment. -/
def requestedTick (ctx : NoiseContext) : List Application :=
  match ctx.model.tickNoise with
  | none => []
  | some rule =>
    let qubits := ctx.noisyQubits fun _ => true
    if qubits.isEmpty then [] else requestedBy rule.after.entries qubits

theorem requestedFor_of_rule {ctx : NoiseContext} {piece : Instruction} {rule : NoiseRule}
    (hexposed : ¬ (piece.qubits.any fun q => ctx.immune.contains q) = true)
    (hrule : ctx.model.ruleFor piece = .rule rule) :
    ctx.requestedFor piece = requestedBy rule.after.entries piece.qubits := by
  rw [requestedFor, if_neg hexposed, hrule]

theorem requestedFor_of_no_rule {ctx : NoiseContext} {piece : Instruction}
    (hrule : ∀ rule, ctx.model.ruleFor piece ≠ .rule rule) : ctx.requestedFor piece = [] := by
  unfold requestedFor
  split
  · rfl
  · cases hmatch : ctx.model.ruleFor piece with
    | rule rule => exact absurd hmatch (hrule rule)
    | missing => rfl
    | exempt => rfl

theorem requestedTick_of_none {ctx : NoiseContext} (h : ctx.model.tickNoise = none) :
    ctx.requestedTick = [] := by
  rw [requestedTick, h]

theorem requestedTick_of_some {ctx : NoiseContext} {rule : NoiseRule}
    (h : ctx.model.tickNoise = some rule) :
    ctx.requestedTick = if (ctx.noisyQubits fun _ => true).isEmpty then []
      else requestedBy rule.after.entries (ctx.noisyQubits fun _ => true) := by
  rw [requestedTick, h]

/-- The applications requested on the background of a moment, given the tests whether a qubit is
used and whether it is collapsed, and whether any is. -/
def requestedBackground (ctx : NoiseContext) (used collapsed : Nat → Bool) (any : Bool) :
    List Application :=
  requestedIdle ctx.model.idleDepolarization (ctx.noisyQubits fun q => !used q) ++
    (requestedIdle ctx.model.waitingDepolarization
        (if any then ctx.noisyQubits fun q => !collapsed q else []) ++
      ctx.requestedTick)

theorem writes_of_appendIdle {done out : List Operation} {p : Scalar} {qubits : List Nat}
    (h : appendIdle done p qubits = .ok out) : Writes (requestedIdle p qubits) done out := by
  unfold appendIdle at h
  unfold requestedIdle
  split at h
  · next hactive =>
    rw [Bool.and_eq_true] at hactive
    rw [if_pos (by simpa using hactive)]
    have hwrites := writes_of_appendChannel (isChannelName_name rfl) hactive.1 h
    rwa [application?, Gate.ofName?_name] at hwrites
  · next hquiet =>
    cases h
    rw [if_neg hquiet]
    exact writes_nil _

theorem writes_of_appendTickNoise {qubits : List Nat} {entries : List (String × Scalar)}
    {done out : List Operation} (hentries : ∀ entry ∈ entries, IsChannelName entry.1)
    (h : appendTickNoise qubits done entries = .ok out) :
    Writes (requestedBy entries qubits) done out := by
  induction entries generalizing done with
  | nil =>
    cases h
    exact writes_nil _
  | cons entry entries ih =>
    rw [List.forall_mem_cons] at hentries
    rw [requestedBy, List.flatMap_cons]
    simp only [appendTickNoise] at h
    split at h
    · next hpositive =>
      obtain ⟨_, -, h⟩ := bind_eq_ok.1 h
      obtain ⟨mid, hmid, hrest⟩ := bind_eq_ok.1 h
      rw [if_pos hpositive]
      exact (writes_of_appendChannel hentries.1 hpositive hmid).trans (ih hentries.2 hrest)
    · next hquiet =>
      rw [if_neg hquiet, List.nil_append]
      exact ih hentries.2 h

theorem writes_of_appendBackground {ctx : NoiseContext} (hvalid : ctx.model.IsValid) {m : Moment}
    {done out : List Operation} (h : ctx.appendBackground m done = .ok out) :
    Writes (ctx.requestedBackground (fun q => m.used.contains q)
      (fun q => m.collapsed.contains q) (!m.collapsed.isEmpty)) done out := by
  obtain ⟨idle, hidle, h⟩ := bind_eq_ok.1 h
  obtain ⟨waiting, hwaiting, h⟩ := bind_eq_ok.1 h
  have hwaits : Writes (requestedIdle ctx.model.waitingDepolarization
      (if !m.collapsed.isEmpty then ctx.noisyQubits fun q => !m.collapsed.contains q else []))
      idle waiting := by
    have hwrites := writes_of_appendIdle hwaiting
    cases hempty : m.collapsed.isEmpty <;> simpa [hempty] using hwrites
  have htick : Writes ctx.requestedTick waiting out := by
    split at h
    · next hnone =>
      cases h
      rw [requestedTick_of_none hnone]
      exact writes_nil _
    · next rule hrule =>
      rw [requestedTick_of_some hrule]
      dsimp only at h
      split at h
      · next hempty =>
        cases h
        rw [if_pos hempty]
        exact writes_nil _
      · next hsome =>
        rw [if_neg hsome]
        exact writes_of_appendTickNoise (hvalid rule (NoiseModel.mem_rules_of_tickNoise hrule)) h
  exact (writes_of_appendIdle hidle).trans (hwaits.trans htick)

/-! ## Gathering -/

/-- Qubits of a channel can be shown part by part, as long as the parts are whole: such as the
channel can be applied to. -/
structure Splits {β : Type} (g : Gate) (view : List Nat → List β) (whole : List Nat → Prop) :
    Prop where
  applied : ∀ qubits, (g.kind.isPairwise = true → qubits.length % 2 = 0) → whole qubits
  append : ∀ qubits more, whole qubits → whole more →
    whole (qubits ++ more) ∧ view (qubits ++ more) = view qubits ++ view more

/-- The moment has gathered applications of error channels: the entries of a channel are whole,
and they show of it at any strength what the applications show, up to order. -/
structure Gathers {β : Type} (g : Gate) (view : List Nat → List β) (whole : List Nat → Prop)
    (as : List Application) (m : Moment) : Prop where
  channels : GathersChannels m
  whole : ∀ entry ∈ m.after.entries, Gate.ofName? entry.1.name = some g → whole entry.2
  same : ∀ p, (shown view g p (gathered m)).Perm (shown view g p as)

variable {β : Type} {g : Gate} {view : List Nat → List β} {whole : List Nat → Prop}

theorem gathers_empty : Gathers g view whole [] {} where
  channels := by simp [GathersChannels, OrderedMap.empty]
  whole := by simp [OrderedMap.empty]
  same := fun _ => .refl _

/-- What an entry shows of a channel at a strength. -/
def entryShown (view : List Nat → List β) (g : Gate) (p : Scalar)
    (entry : ChannelKey × List Nat) : List β :=
  if Gate.ofName? entry.1.name = some g ∧ entry.1.strength = p then view entry.2 else []

theorem shown_application? (view : List Nat → List β) (g : Gate) (p : Scalar)
    (key : ChannelKey) (qubits : List Nat) :
    shown view g p (application? key.name key.strength qubits).toList =
      entryShown view g p (key, qubits) := by
  unfold application? entryShown
  cases Gate.ofName? key.name <;> simp [shown]

theorem shown_gathered (view : List Nat → List β) (g : Gate) (p : Scalar) (m : Moment) :
    shown view g p (gathered m) = m.after.entries.flatMap (entryShown view g p) := by
  rw [gathered, shown, List.flatMap_assoc]
  apply List.flatMap_congr
  intro entry _
  exact shown_application? view g p entry.1 entry.2

theorem entryShown_append (hview : Splits g view whole) (p : Scalar) {key : ChannelKey}
    {qubits more : List Nat} (hqubits : Gate.ofName? key.name = some g → whole qubits)
    (hmore : Gate.ofName? key.name = some g → whole more) :
    entryShown view g p (key, qubits ++ more) =
      entryShown view g p (key, qubits) ++ entryShown view g p (key, more) := by
  unfold entryShown
  split
  · next hkey => exact (hview.append _ _ (hqubits hkey.1) (hmore hkey.1)).2
  · rfl

theorem Splits.whole_nil (hview : Splits g view whole) : whole [] := hview.applied [] fun _ => rfl

theorem Splits.view_nil (hview : Splits g view whole) : view [] = [] := by
  have happend : view [] = view [] ++ view [] :=
    (hview.append [] [] hview.whole_nil hview.whole_nil).2
  simpa using happend

/-- Qubits are added to what the entry of their channel and strength has, which is nothing when
there is no such entry. -/
theorem addChannel_perm (hview : Splits g view whole) (m : Moment) (key : ChannelKey)
    (qubits : List Nat) :
    ∃ old rest, (old = [] ∨ (key, old) ∈ m.after.entries) ∧
      (∀ entry ∈ rest, entry ∈ m.after.entries) ∧
      (∀ p, (m.after.entries.flatMap (entryShown view g p)).Perm
        (entryShown view g p (key, old) ++ rest.flatMap (entryShown view g p))) ∧
      (m.addChannel key.name key.strength qubits).after.entries.Perm
        ((key, old ++ qubits) :: rest) := by
  obtain ⟨rest, hold, hnew⟩ := m.after.alter_perm key fun old => some (old.getD [] ++ qubits)
  have hrest : ∀ entry ∈ rest, entry ∈ m.after.entries :=
    fun entry hentry => hold.mem_iff.2 (List.mem_append_right _ hentry)
  refine ⟨(m.after.get? key).getD [], rest, ?_, hrest, fun p => ?_, hnew⟩
  · cases hget : m.after.get? key with
    | none => exact .inl rfl
    | some old => exact .inr (hold.mem_iff.2 (by simp [hget]))
  · cases hget : m.after.get? key with
    | none =>
      rw [hget] at hold
      have hnone : entryShown view g p (key, []) = [] := by simp [entryShown, hview.view_nil]
      rw [Option.getD_none, hnone, List.nil_append]
      exact hold.flatMap_right _
    | some old =>
      rw [hget] at hold
      exact hold.flatMap_right _

/-- One more application is gathered with those of its name and strength. -/
theorem Gathers.addChannel {as : List Application} {m : Moment} (h : Gathers g view whole as m)
    (hview : Splits g view whole) (key : ChannelKey) {qubits : List Nat}
    (hname : IsChannelName key.name) (hp : (0 : Scalar).numLt key.strength = true)
    (hqubits : Gate.ofName? key.name = some g → whole qubits) :
    Gathers g view whole (as ++ (application? key.name key.strength qubits).toList)
      (m.addChannel key.name key.strength qubits) := by
  obtain ⟨old, rest, hold, hrest, hshown, hnew⟩ := addChannel_perm hview m key qubits
  have holdWhole : Gate.ofName? key.name = some g → whole old := by
    intro hg
    rcases hold with rfl | hmem
    · exact hview.whole_nil
    · exact h.whole _ hmem hg
  constructor
  · intro entry hentry
    rcases List.mem_cons.1 (hnew.mem_iff.1 hentry) with rfl | hentry
    · exact ⟨hname, hp⟩
    · exact h.channels entry (hrest entry hentry)
  · intro entry hentry hg
    rcases List.mem_cons.1 (hnew.mem_iff.1 hentry) with rfl | hentry
    · exact (hview.append _ _ (holdWhole hg) (hqubits hg)).1
    · exact h.whole entry (hrest entry hentry) hg
  · intro p
    have hsame := h.same p
    rw [shown_gathered] at hsame ⊢
    rw [shown_append, shown_application?]
    calc (m.addChannel key.name key.strength qubits).after.entries.flatMap (entryShown view g p)
        |>.Perm (entryShown view g p (key, old ++ qubits) ++
            rest.flatMap (entryShown view g p)) := hnew.flatMap_right _
      List.Perm _ (entryShown view g p (key, old) ++ rest.flatMap (entryShown view g p) ++
            entryShown view g p (key, qubits)) := by
          rw [entryShown_append hview p holdWhole hqubits, List.append_assoc, List.append_assoc]
          exact List.perm_append_comm.append_left _
      List.Perm _ (shown view g p as ++ entryShown view g p (key, qubits)) :=
          ((hshown p).symm.trans hsame).append_right _

theorem even_of_checkArity {channel context : String} {qubits : Nat} {result : Unit}
    (h : checkArity channel qubits context = .ok result) (hg : Gate.ofName? channel = some g)
    (hkind : g.kind.isPairwise = true) : qubits % 2 = 0 := by
  unfold checkArity at h
  simp only [hg, Option.any_some, hkind, Bool.true_and] at h
  split at h
  · cases h
  · next heven => simpa using heven

/-- The rest of a moment is as before: only gathered channels were added. -/
structure SameUse (m out : Moment) : Prop where
  used : out.used = m.used
  collapsed : out.collapsed = m.collapsed
  active : out.active = m.active

theorem Gathers.collect (hview : Splits g view whole) {piece : Instruction}
    {entries : List (String × Scalar)} (hentries : ∀ entry ∈ entries, IsChannelName entry.1)
    {as : List Application} {m out : Moment} (hm : Gathers g view whole as m)
    (h : NoiseContext.collect m piece entries = .ok out) :
    Gathers g view whole (as ++ requestedBy entries piece.qubits) out ∧ SameUse m out := by
  induction entries generalizing as m with
  | nil =>
    cases h
    rw [requestedBy, List.flatMap_nil, List.append_nil]
    exact ⟨hm, rfl, rfl, rfl⟩
  | cons entry entries ih =>
    rw [List.forall_mem_cons] at hentries
    simp only [NoiseContext.collect] at h
    rw [requestedBy, List.flatMap_cons, ← List.append_assoc]
    split at h
    · next hpositive =>
      obtain ⟨_, harity, h⟩ := bind_eq_ok.1 h
      have hadded := hm.addChannel hview ⟨entry.1, entry.2⟩ hentries.1 hpositive
        fun hg => hview.applied piece.qubits (even_of_checkArity harity hg)
      obtain ⟨hgathers, hsame⟩ := ih hentries.2 hadded h
      rw [if_pos hpositive]
      exact ⟨hgathers, hsame.used, hsame.collapsed, hsame.active⟩
    · next hquiet =>
      rw [if_neg hquiet, List.append_nil]
      exact ih hentries.2 hm h

/-! ## The run of a moment -/

/-- The moment has taken in pieces: it knows the qubits they use and collapse, and has gathered
what they request. -/
structure TakesIn (ctx : NoiseContext) (g : Gate) (view : List Nat → List β)
    (whole : List Nat → Prop) (pieces : List Instruction) (m : Moment) : Prop where
  used : ∀ q, q ∈ m.used ↔ ∃ piece ∈ pieces, q ∈ piece.qubits
  collapsed : ∀ q, q ∈ m.collapsed ↔
    ∃ piece ∈ pieces, piece.kind.isCollapsing = true ∧ q ∈ piece.qubits
  gathers : Gathers g view whole (pieces.flatMap ctx.requestedFor) m

theorem takesIn_empty {ctx : NoiseContext} : TakesIn ctx g view whole [] {} where
  used := by simp
  collapsed := by simp
  gathers := gathers_empty

theorem sameUse_of_claim {allowReuse : Bool} {gate : String} {m out : Moment} {qubits : List Nat}
    (h : m.claim allowReuse gate qubits = .ok out) : SameUse m out := by
  induction qubits generalizing m with
  | nil =>
    cases h
    exact ⟨rfl, rfl, rfl⟩
  | cons q qubits ih =>
    unfold Moment.claim at h
    split at h
    · cases h
    · have hsame := ih h
      exact ⟨hsame.used, hsame.collapsed, hsame.active⟩

/-- What is noted of a piece that is no error channel. -/
theorem observe_spec {ctx : NoiseContext} {m out : Moment} {piece : Instruction}
    (hnoise : piece.kind.isNoise = false) (h : ctx.observe m piece = .ok out) :
    out.used = piece.qubits ++ m.used ∧
      out.collapsed = (if piece.kind.isCollapsing then piece.qubits else []) ++ m.collapsed ∧
      out.active = m.active := by
  have hlast : ∀ claimed : Moment, SameUse { m with used := piece.qubits ++ m.used } claimed →
      (if piece.kind.isCollapsing = true then
        pure { claimed with collapsed := piece.qubits ++ claimed.collapsed }
        else pure claimed : Except CompileError Moment) = .ok out →
      out.used = piece.qubits ++ m.used ∧
        out.collapsed = (if piece.kind.isCollapsing then piece.qubits else []) ++ m.collapsed ∧
        out.active = m.active := by
    intro claimed hsame hout
    split at hout
    · next hcollapsing =>
      cases hout
      exact ⟨hsame.used, by rw [if_pos hcollapsing, ← hsame.collapsed], hsame.active⟩
    · next hkeeping =>
      cases hout
      exact ⟨hsame.used, by rw [if_neg hkeeping, hsame.collapsed, List.nil_append], hsame.active⟩
  unfold observe at h
  simp only [hnoise, Bool.false_eq_true, if_false] at h
  split at h
  · obtain ⟨claimed, hclaimed, h⟩ := bind_eq_ok.1 h
    cases hclaimed
    exact hlast _ ⟨rfl, rfl, rfl⟩ h
  · obtain ⟨claimed, hclaimed, h⟩ := bind_eq_ok.1 h
    exact hlast claimed (sameUse_of_claim hclaimed) h

theorem gathers_of_after {as : List Application} {m out : Moment} (h : Gathers g view whole as m)
    (hafter : out.after = m.after) : Gathers g view whole as out := by
  constructor
  · rw [GathersChannels, hafter]
    exact h.channels
  · rw [hafter]
    exact h.whole
  · rw [gathered, hafter]
    exact h.same

theorem Gathers.applyRule (hview : Splits g view whole) {rule : NoiseRule} (hrule : rule.IsValid)
    {as : List Application} {m : Moment} (hm : Gathers g view whole as m) {piece : Instruction}
    {result : Moment × Instruction} (h : NoiseContext.applyRule rule m piece = .ok result) :
    Gathers g view whole (as ++ requestedBy rule.after.entries piece.qubits) result.1 ∧
      SameUse m result.1 := by
  obtain ⟨collected, hcollected, h⟩ := bind_eq_ok.1 h
  have hgathers := hm.collect hview hrule hcollected
  split at h
  · split at h
    · cases h
      exact hgathers
    · cases h
  · cases h
    exact hgathers

/-- Once a piece is taken note of, what is requested for it is gathered. -/
theorem Gathers.piece {ctx : NoiseContext} (hvalid : ctx.model.IsValid)
    (hview : Splits g view whole) {as : List Application} {m observed : Moment}
    (hm : Gathers g view whole as m) {piece : Instruction}
    (hobserved : ctx.observe m piece = .ok observed) {result : Moment × Instruction}
    (h : ctx.piece m piece = .ok result) :
    Gathers g view whole (as ++ ctx.requestedFor piece) result.1 ∧ SameUse observed result.1 := by
  have hobserves := gathers_of_after hm (after_of_observe hobserved)
  obtain ⟨_, hsame, h⟩ := bind_eq_ok.1 h
  rw [hobserved] at hsame
  cases hsame
  split at h
  · next himmune =>
    cases h
    rw [requestedFor, if_pos himmune, List.append_nil]
    exact ⟨hobserves, rfl, rfl, rfl⟩
  · next hexposed =>
    split at h
    · next rule hrule =>
      rw [requestedFor_of_rule hexposed hrule]
      exact hobserves.applyRule hview (hvalid rule (NoiseModel.mem_rules_of_ruleFor hrule)) h
    · next hmissing =>
      rw [requestedFor_of_no_rule (by simp [hmissing]), List.append_nil]
      split at h
      · cases h
      · cases h
        exact ⟨hobserves, rfl, rfl, rfl⟩
    · next hexempt =>
      cases h
      rw [requestedFor_of_no_rule (by simp [hexempt]), List.append_nil]
      exact ⟨hobserves, rfl, rfl, rfl⟩

/-- A piece adds its qubits to the uses and what is requested for it to what is gathered. -/
theorem TakesIn.piece {ctx : NoiseContext} (hvalid : ctx.model.IsValid)
    (hview : Splits g view whole) {pieces : List Instruction} {m : Moment}
    (hm : TakesIn ctx g view whole pieces m) {piece : Instruction}
    (hnoise : piece.kind.isNoise = false) {result : Moment × Instruction}
    (h : ctx.piece m piece = .ok result) :
    TakesIn ctx g view whole (pieces ++ [piece]) result.1 ∧ result.1.active = m.active := by
  obtain ⟨observed, hobserved, -⟩ := bind_eq_ok.1 h
  obtain ⟨hused, hcollapsed, hactive⟩ := observe_spec hnoise hobserved
  obtain ⟨hgathers, hsame⟩ := hm.gathers.piece hvalid hview hobserved h
  refine ⟨⟨fun q => ?_, fun q => ?_, ?_⟩, hsame.active.trans hactive⟩
  · rw [hsame.used, hused, List.mem_append, hm.used]
    simp [or_and_right, exists_or, or_comm]
  · rw [hsame.collapsed, hcollapsed, List.mem_append, hm.collapsed]
    simp [or_and_right, exists_or, or_comm]
  · rw [List.flatMap_append, List.flatMap_singleton]
    exact hgathers

theorem TakesIn.copyPieces {ctx : NoiseContext} (hvalid : ctx.model.IsValid)
    (hview : Splits g view whole) {more : List Instruction}
    (hnoise : ∀ piece ∈ more, piece.kind.isNoise = false) {pieces : List Instruction} {m : Moment}
    (hm : TakesIn ctx g view whole pieces m) {done : List Operation}
    {result : Moment × List Operation} (h : ctx.copyPieces m done more = .ok result) :
    TakesIn ctx g view whole (pieces ++ more) result.1 ∧ result.1.active = m.active := by
  induction more generalizing pieces m done with
  | nil =>
    cases h
    rw [List.append_nil]
    exact ⟨hm, rfl⟩
  | cons piece more ih =>
    rw [List.forall_mem_cons] at hnoise
    obtain ⟨copied, hcopied, h⟩ := bind_eq_ok.1 h
    obtain ⟨htakes, hactive⟩ := hm.piece hvalid hview hnoise.1 hcopied
    obtain ⟨hrest, hrestActive⟩ := ih hnoise.2 htakes h
    rw [List.append_assoc] at hrest
    exact ⟨hrest, hrestActive.trans hactive⟩

/-- The pieces of the operations of a moment. -/
def operationPieces (is : List Instruction) : List Instruction :=
  is.flatMap fun i => if i.kind.isMetadata then [] else piecesOf i

/-- Whether a moment has anything but annotations. -/
def hasOperation (is : List Instruction) : Bool := is.any fun i => !i.kind.isMetadata

theorem TakesIn.copyMoment {ctx : NoiseContext} (hvalid : ctx.model.IsValid)
    (hview : Splits g view whole) {is : List Instruction}
    (hnoise : ∀ i ∈ is, i.kind.isNoise = false) {pieces : List Instruction} {m : Moment}
    (hm : TakesIn ctx g view whole pieces m) {done : List Operation}
    {result : Moment × List Operation} (h : ctx.copyMoment m done is = .ok result) :
    TakesIn ctx g view whole (pieces ++ operationPieces is) result.1 ∧
      result.1.active = (m.active || hasOperation is) := by
  induction is generalizing pieces m done with
  | nil =>
    cases h
    simpa [operationPieces, hasOperation] using hm
  | cons i is ih =>
    rw [List.forall_mem_cons] at hnoise
    have hpieces : operationPieces (i :: is) =
        (if i.kind.isMetadata then [] else piecesOf i) ++ operationPieces is := rfl
    have hoperation : hasOperation (i :: is) = (!i.kind.isMetadata || hasOperation is) := rfl
    rw [hpieces, hoperation]
    unfold NoiseContext.copyMoment at h
    split at h
    · next hmetadata =>
      rw [if_pos hmetadata, List.nil_append, hmetadata]
      exact ih hnoise.2 hm h
    · next hmetadata =>
      obtain ⟨copied, hcopied, h⟩ := bind_eq_ok.1 h
      have hactive : TakesIn ctx g view whole pieces { m with active := true } :=
        ⟨hm.used, hm.collapsed, gathers_of_after hm.gathers rfl⟩
      have hkinds : ∀ piece ∈ piecesOf i, piece.kind.isNoise = false := by
        intro piece hpiece
        obtain ⟨group, -, rfl⟩ := List.mem_map.1 hpiece
        exact hnoise.1
      obtain ⟨htakes, hset⟩ := hactive.copyPieces hvalid hview hkinds hcopied
      obtain ⟨hrest, hrestActive⟩ := ih hnoise.2 htakes h
      rw [List.append_assoc] at hrest
      rw [if_neg hmetadata]
      refine ⟨hrest, ?_⟩
      simp [hrestActive, hset, hmetadata]

/-! ## What a moment writes -/

/-- Whether one of the pieces touches a qubit. -/
def touches (pieces : List Instruction) (q : Nat) : Bool :=
  pieces.any fun piece => piece.qubits.contains q

/-- The pieces that collapse their qubits. -/
def collapsing (pieces : List Instruction) : List Instruction :=
  pieces.filter fun piece => piece.kind.isCollapsing

/-- The applications requested in a moment. -/
def requests (ctx : NoiseContext) (is : List Instruction) : List Application :=
  let pieces := operationPieces is
  pieces.flatMap ctx.requestedFor ++
    if hasOperation is then
      ctx.requestedBackground (touches pieces) (touches (collapsing pieces))
        ((collapsing pieces).any fun piece => !piece.qubits.isEmpty)
    else []

theorem TakesIn.contains_used {ctx : NoiseContext} {pieces : List Instruction} {m : Moment}
    (h : TakesIn ctx g view whole pieces m) :
    (fun q => m.used.contains q) = touches pieces := by
  funext q
  rw [Bool.eq_iff_iff, List.contains_iff_mem, h.used]
  simp [touches]

theorem TakesIn.contains_collapsed {ctx : NoiseContext} {pieces : List Instruction} {m : Moment}
    (h : TakesIn ctx g view whole pieces m) :
    (fun q => m.collapsed.contains q) = touches (collapsing pieces) := by
  funext q
  rw [Bool.eq_iff_iff, List.contains_iff_mem, h.collapsed]
  simp [touches, collapsing]

theorem TakesIn.any_collapsed {ctx : NoiseContext} {pieces : List Instruction} {m : Moment}
    (h : TakesIn ctx g view whole pieces m) :
    (!m.collapsed.isEmpty) = (collapsing pieces).any fun piece => !piece.qubits.isEmpty := by
  have hsome : ∀ qubits : List Nat, (!qubits.isEmpty) = true ↔ ∃ q, q ∈ qubits := by
    intro qubits
    cases qubits <;> simp
  rw [Bool.eq_iff_iff, hsome, List.any_eq_true]
  simp only [h.collapsed, hsome, collapsing, List.mem_filter]
  constructor
  · rintro ⟨q, piece, hpiece, hkind, hq⟩
    exact ⟨piece, ⟨hpiece, hkind⟩, q, hq⟩
  · rintro ⟨piece, ⟨hpiece, hkind⟩, q, hq⟩
    exact ⟨q, piece, hpiece, hkind, hq⟩

/-- A view that shows all qubits. -/
theorem splits_qubits (g : Gate) : Splits g id fun _ => True where
  applied := fun _ _ => trivial
  append := fun _ _ _ _ => ⟨trivial, rfl⟩

/-- Once a moment is copied out, applications are written that show what is requested in it. -/
theorem writes_of_copyMoment {ctx : NoiseContext} (hvalid : ctx.model.IsValid)
    {is : List Instruction} (hnoise : ∀ i ∈ is, i.kind.isNoise = false)
    {done out : List Operation} (h : ctx.moment done is = .ok out) :
    ∃ copied as, ctx.copyMoment {} done is = .ok copied ∧ Writes as copied.2 out ∧
      ∀ {β : Type} {g : Gate} {view : List Nat → List β} {whole : List Nat → Prop},
        Splits g view whole → ∀ p, (shown view g p as).Perm (shown view g p (ctx.requests is)) := by
  obtain ⟨copied, hcopied, h⟩ := bind_eq_ok.1 h
  obtain ⟨collected, hcollected, h⟩ := bind_eq_ok.1 h
  have htakes : ∀ {β : Type} {g : Gate} {view : List Nat → List β} {whole : List Nat → Prop},
      Splits g view whole → TakesIn ctx g view whole (operationPieces is) copied.1 ∧
        copied.1.active = hasOperation is := by
    intro β g view whole hview
    have htaken := takesIn_empty.copyMoment hvalid hview hnoise hcopied
    rwa [List.nil_append, Bool.false_or] at htaken
  obtain ⟨hqubits, hactive⟩ := htakes (splits_qubits .tick)
  have hgathered := writes_of_appendCollected hqubits.gathers.channels hcollected
  have hbackground : Writes (if hasOperation is then
      ctx.requestedBackground (touches (operationPieces is))
        (touches (collapsing (operationPieces is)))
        ((collapsing (operationPieces is)).any fun piece => !piece.qubits.isEmpty)
      else []) collected out := by
    rw [← hactive]
    split at h
    · next hset =>
      rw [if_pos hset, ← hqubits.contains_used, ← hqubits.contains_collapsed,
        ← hqubits.any_collapsed]
      exact writes_of_appendBackground hvalid h
    · next hunset =>
      cases h
      rw [if_neg hunset]
      exact writes_nil _
  refine ⟨copied, _, hcopied, hgathered.trans hbackground, fun hview p => ?_⟩
  rw [shown_append, requests, shown_append]
  exact ((htakes hview).1.gathers.same p).append_right _

/-- A moment with noise is its instructions, copied, followed by applications that show what is
requested in it. -/
theorem writes_of_moment {ctx : NoiseContext} (hvalid : ctx.model.IsValid) {is : List Instruction}
    (hnoise : ∀ i ∈ is, i.kind.isNoise = false) {done out : List Operation}
    (h : ctx.moment done is = .ok out) :
    ∃ copies as, List.Forall₂ CopiedAs is copies ∧
      Writes as (copies.flatten.foldl Circuit.pushReversed done) out ∧
      ∀ {β : Type} {g : Gate} {view : List Nat → List β} {whole : List Nat → Prop},
        Splits g view whole → ∀ p, (shown view g p as).Perm (shown view g p (ctx.requests is)) := by
  obtain ⟨copied, as, hcopied, hwrites, hshown⟩ := writes_of_copyMoment hvalid hnoise h
  obtain ⟨copies, hcopies, hdone, -⟩ :=
    copied_of_copyMoment hvalid collectsChannels_empty hcopied
  exact ⟨copies, as, hcopies, hdone ▸ hwrites, hshown⟩

end NoiseContext

end StabCircuit
