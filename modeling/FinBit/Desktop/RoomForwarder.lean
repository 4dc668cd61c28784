import FinBit.Media.ForwarderRouting

/-! # The forwarder of a room

The client that a room elects sends the stream of every member on to every other one. The routing says
who is relayed to whom; the media pipeline follows it, one branch for an edge, as members join, their
streams arrive and members leave. What GStreamer makes of a request is a part of the event, as are the
calls that it makes of its own accord.
-/

namespace FinBit.Desktop

open FinBit.Lib FinBit.Media Std

instance ForwardEdge.ord : Ord ForwardEdge :=
  ⟨compareLex (compareOn ForwardEdge.src) (compareOn ForwardEdge.sub)⟩

instance ForwardEdge.transOrd : TransOrd ForwardEdge :=
  inferInstanceAs (TransCmp (compareLex (compareOn ForwardEdge.src) (compareOn ForwardEdge.sub)))

theorem compare_edge {a b : ForwardEdge} : compare a b = .eq ↔ a = b := by
  rw [ForwardEdge.ext_iff, ← Std.compare_eq_iff_eq (a := a.src), ← Std.compare_eq_iff_eq (a := a.sub)]
  exact Ordering.then_eq_eq

instance ForwardEdge.lawfulEqOrd : LawfulEqOrd ForwardEdge := ⟨compare_edge.mp⟩

/-- `RoomForwarder::Impl::Leaf`; elements of the pipeline go by numbers. -/
structure Leaf where
  webrtc : Nat
  /-- The tee that its stream is fed to. -/
  srcTee : Option Nat
  initialDone : Bool

/-- `RoomForwarder::Impl::Branch`: the queue and the payloader, by what they have been linked to. -/
structure Branch where
  tee : Nat
  webrtc : Nat
  /-- The name of the payloader. -/
  payName : Bytes

/-- The signals of a `RoomForwarder`. -/
inductive ForwarderSignal
  | answerReady (leaf sdp : Bytes)
  | renegotiateOffer (leaf sdp : Bytes)
  | localIce (leaf candidate : Bytes)
  | trackBinding (sub mid source : Bytes)

structure RoomForwarder where
  routing : ForwarderRouting
  leaves : ExtTreeMap Bytes Leaf
  branches : ExtTreeMap ForwardEdge Branch

namespace RoomForwarder

def new : RoomForwarder := ⟨.empty, ∅, ∅⟩

/-- What becomes of the elements for a branch: the name of the payloader, or `none` where one of them
cannot be made or linked. -/
abbrev Linking := ForwardEdge → Option Bytes

variable (f : RoomForwarder)

/-- `wire_edge`. -/
def wireEdge (link : Linking) (e : ForwardEdge) : RoomForwarder × List ForwarderSignal :=
  if e.src = e.sub then (f, [])
  else
    match f.leaves[e.src]?, f.leaves[e.sub]? with
    | some ps, some pp =>
      match ps.srcTee with
      -- not ready yet
      | none => (f, [])
      | some tee =>
        if f.branches.contains e then (f, [])
        else
          match link e with
          | none => (f, [])
          | some payName =>
            ({ f with branches := f.branches.insert e ⟨tee, pp.webrtc, payName⟩ },
              [.trackBinding e.sub payName e.src])
    | _, _ => (f, [])

def wireEdges (link : Linking) : RoomForwarder → List ForwardEdge →
    RoomForwarder × List ForwarderSignal
  | f, [] => (f, [])
  | f, e :: rest =>
    let (f, signals) := f.wireEdge link e
    let (f, others) := wireEdges link f rest
    (f, signals ++ others)

/-- `tear_edge`. -/
def tearEdge (e : ForwardEdge) : RoomForwarder := { f with branches := f.branches.erase e }

/-- `add_leaf`, with the element that `make_leaf_webrtc` makes and whether the offer parses. -/
def addLeaf (key : Bytes) (webrtc : Option Nat) (parses : Bool) (link : Linking) :
    RoomForwarder × List ForwarderSignal :=
  if f.leaves.contains key then (f, [])
  else
    match webrtc with
    | none => (f, [])
    | some webrtc =>
      let leaves := f.leaves.insert key ⟨webrtc, none, false⟩
      -- the leaf stays, but is not routed
      if !parses then ({ f with leaves }, [])
      else
        let (routing, added) := f.routing.addLeaf key
        wireEdges link { f with routing, leaves } (added.filter fun e => e.sub = key)

/-- `on_fwd_pad_added`, with the tee that `build_recv_tee` makes of the pad. -/
def padAdded (key : Bytes) (tee : Option Nat) (link : Linking) :
    RoomForwarder × List ForwarderSignal :=
  match tee, f.leaves[key]? with
  | some tee, some leaf =>
    let f := { f with leaves := f.leaves.insert key { leaf with srcTee := some tee } }
    wireEdges link f ((f.routing.subscribersOf key).map fun sub => ⟨key, sub⟩)
  | _, _ => (f, [])

/-- The promise of `create-answer`. -/
def answerCreated (key : Bytes) (answer : Option Bytes) : RoomForwarder × List ForwarderSignal :=
  match answer with
  | none => (f, [])
  | some sdp =>
    let leaves :=
      match f.leaves[key]? with
      | some leaf => f.leaves.insert key { leaf with initialDone := true }
      | none => f.leaves
    ({ f with leaves }, [.answerReady key sdp])

/-- `on_fwd_negotiation_needed` asks for an offer. -/
def wantsOffer (key : Bytes) : Bool :=
  match f.leaves[key]? with
  | some leaf => leaf.initialDone
  | none => false

/-- `remove_leaf`. -/
def removeLeaf (key : Bytes) : RoomForwarder :=
  if f.leaves.contains key then
    let (routing, removed) := f.routing.removeLeaf key
    let f := removed.foldl tearEdge f
    { f with routing, leaves := f.leaves.erase key }
  else f

/-! ### What a call does to the branches -/

/-- The tee of a leaf. -/
def tee (key : Bytes) : Option Nat := f.leaves[key]?.bind Leaf.srcTee

/-- The branch that an edge gets if it has none. -/
def branchFor (link : Linking) (e : ForwardEdge) : Option Branch :=
  if e.src = e.sub then none
  else (f.tee e.src).bind fun tee =>
    f.leaves[e.sub]?.bind fun pp => (link e).map fun payName => ⟨tee, pp.webrtc, payName⟩

/-- The signal of a new branch. -/
def binding (e : ForwardEdge) (b : Branch) : ForwarderSignal := .trackBinding e.sub b.payName e.src

variable {f}

theorem wireEdge_old {link : Linking} {e : ForwardEdge} (old : e ∈ f.branches) :
    f.wireEdge link e = (f, []) := by
  rw [wireEdge]
  split
  · rfl
  · split
    · split
      · rfl
      · rw [if_pos (ExtTreeMap.mem_iff_contains.mp old)]
    · rfl

theorem wireEdge_new {link : Linking} {e : ForwardEdge} (new : e ∉ f.branches) :
    f.wireEdge link e =
      match f.branchFor link e with
      | none => (f, [])
      | some b => ({ f with branches := f.branches.insert e b }, [binding e b]) := by
  have missing : ¬f.branches.contains e = true := mt ExtTreeMap.mem_iff_contains.mpr new
  rw [wireEdge, branchFor, tee]
  by_cases loop : e.src = e.sub
  · rw [if_pos loop, if_pos loop]
  · rw [if_neg loop, if_neg loop]
    cases f.leaves[e.src]? with
    | none => simp
    | some ps =>
      cases f.leaves[e.sub]? with
      | none => cases ps.srcTee <;> simp
      | some pp =>
        cases heard : ps.srcTee with
        | none => simp [heard]
        | some tee =>
          cases link e with
          | none => simp [missing, heard]
          | some payName => simp [missing, heard, binding]

/-- What a round of wiring leaves: under an edge the branch that was there, or else the one for an edge
of the round. -/
theorem wireEdges_spec {link : Linking} {l : List ForwardEdge} :
    (wireEdges link f l).1.routing = f.routing ∧ (wireEdges link f l).1.leaves = f.leaves ∧
      ∀ e, (wireEdges link f l).1.branches[e]? =
        f.branches[e]?.or (if e ∈ l then f.branchFor link e else none) := by
  induction l generalizing f with
  | nil => exact ⟨rfl, rfl, fun e => by simp [wireEdges]⟩
  | cons first rest ih =>
    by_cases old : first ∈ f.branches
    · obtain ⟨routing, leaves, branches⟩ := @ih f
      refine ⟨by simpa [wireEdges, wireEdge_old old] using routing,
        by simpa [wireEdges, wireEdge_old old] using leaves, fun e => ?_⟩
      simp only [wireEdges, wireEdge_old old]
      rw [branches]
      by_cases here : e = first
      · subst here
        rw [ExtTreeMap.getElem?_eq_some_getElem old, Option.some_or, Option.some_or]
      · simp [here]
    · cases made : f.branchFor link first with
      | none =>
        have unchanged : f.wireEdge link first = (f, []) := by rw [wireEdge_new old, made]
        obtain ⟨routing, leaves, branches⟩ := @ih f
        refine ⟨by simpa [wireEdges, unchanged] using routing,
          by simpa [wireEdges, unchanged] using leaves, fun e => ?_⟩
        simp only [wireEdges, unchanged]
        rw [branches]
        by_cases here : e = first
        · subst here
          simp [made]
        · simp [here]
      | some b =>
        have wired : f.wireEdge link first =
            ({ f with branches := f.branches.insert first b }, [binding first b]) := by
          rw [wireEdge_new old, made]
        obtain ⟨routing, leaves, branches⟩ := @ih { f with branches := f.branches.insert first b }
        refine ⟨by simpa [wireEdges, wired] using routing,
          by simpa [wireEdges, wired] using leaves, fun e => ?_⟩
        have same : branchFor { f with branches := f.branches.insert first b } link e =
          f.branchFor link e := rfl
        simp only [wireEdges, wired]
        rw [branches, same, ExtTreeMap.getElem?_insert]
        by_cases here : e = first
        · subst here
          have missing : f.branches[e]? = none := ExtTreeMap.getElem?_eq_none old
          simp [made, missing]
        · have apart : ¬compare first e = .eq := fun equal => here (compare_edge.mp equal).symm
          simp [here, apart]

/-- A new branch is announced. -/
theorem wireEdges_announced {link : Linking} {l : List ForwardEdge} {e : ForwardEdge} {b : Branch}
    (present : (wireEdges link f l).1.branches[e]? = some b) :
    f.branches[e]? = some b ∨ binding e b ∈ (wireEdges link f l).2 := by
  induction l generalizing f with
  | nil => exact .inl present
  | cons first rest ih =>
    simp only [wireEdges] at present ⊢
    obtain before | later := ih present
    · by_cases old : first ∈ f.branches
      · rw [wireEdge_old old] at before
        exact .inl before
      · rw [wireEdge_new old] at before ⊢
        cases made : f.branchFor link first with
        | none =>
          rw [made] at before
          exact .inl before
        | some b' =>
          rw [made] at before
          change (f.branches.insert first b')[e]? = some b at before
          rw [ExtTreeMap.getElem?_insert] at before
          split at before
          next here =>
            obtain rfl := compare_edge.mp here
            cases before
            exact .inr List.mem_cons_self
          · exact .inl before
    · exact .inr (List.mem_append_right _ later)

theorem foldl_tearEdge {l : List ForwardEdge} :
    (l.foldl tearEdge f).leaves = f.leaves ∧
      ∀ e, (l.foldl tearEdge f).branches[e]? = if e ∈ l then none else f.branches[e]? := by
  induction l generalizing f with
  | nil => exact ⟨rfl, fun e => by simp⟩
  | cons first rest ih =>
    obtain ⟨leaves, branches⟩ := @ih (f.tearEdge first)
    refine ⟨by rw [List.foldl_cons, leaves]; rfl, fun e => ?_⟩
    rw [List.foldl_cons, branches]
    by_cases later : e ∈ rest
    · rw [if_pos later, if_pos (List.mem_cons_of_mem _ later)]
    · rw [if_neg later, tearEdge, ExtTreeMap.getElem?_erase]
      by_cases here : e = first
      · rw [if_pos (compare_edge.mpr here.symm), if_pos (by simp [here])]
      · rw [if_neg fun equal => here (compare_edge.mp equal).symm, if_neg (by simp [here, later])]

theorem branchFor_eq_some_iff {link : Linking} {e : ForwardEdge} {b : Branch} :
    f.branchFor link e = some b ↔ e.src ≠ e.sub ∧ f.tee e.src = some b.tee ∧
      f.leaves[e.sub]?.map Leaf.webrtc = some b.webrtc ∧ link e = some b.payName := by
  rw [branchFor]
  by_cases loop : e.src = e.sub
  · simp [loop]
  · obtain ⟨tee, webrtc, payName⟩ := b
    simp only [loop, if_false, not_false_eq_true, true_and, ne_eq, Option.bind_eq_some_iff,
      Option.map_eq_some_iff, Branch.mk.injEq]
    grind

theorem addLeaf_cases (key : Bytes) (webrtc : Option Nat) (parses : Bool) (link : Linking) :
    f.addLeaf key webrtc parses link = (f, []) ∨ key ∉ f.leaves ∧ ∃ w,
      f.addLeaf key webrtc parses link =
        ({ f with leaves := f.leaves.insert key ⟨w, none, false⟩ }, []) ∨
      f.addLeaf key webrtc parses link =
        wireEdges link ⟨(f.routing.addLeaf key).1, f.leaves.insert key ⟨w, none, false⟩, f.branches⟩
          ((f.routing.addLeaf key).2.filter fun e => e.sub = key) := by
  rw [addLeaf.eq_def]
  split
  · exact .inl rfl
  next unknown =>
    have fresh : key ∉ f.leaves := mt ExtTreeMap.mem_iff_contains.mp unknown
    cases webrtc with
    | none => exact .inl rfl
    | some w =>
      cases parses with
      | false => exact .inr ⟨fresh, w, .inl rfl⟩
      | true => exact .inr ⟨fresh, w, .inr rfl⟩

theorem padAdded_cases (key : Bytes) (tee : Option Nat) (link : Linking) :
    f.padAdded key tee link = (f, []) ∨ ∃ t leaf, f.leaves[key]? = some leaf ∧
      f.padAdded key tee link =
        wireEdges link { f with leaves := f.leaves.insert key { leaf with srcTee := some t } }
          ((f.routing.subscribersOf key).map fun sub => ⟨key, sub⟩) := by
  rw [padAdded.eq_def]
  split
  next t leaf found => exact .inr ⟨t, leaf, found, rfl⟩
  · exact .inl rfl

theorem answerCreated_cases (key : Bytes) (answer : Option Bytes) :
    f.answerCreated key answer = (f, []) ∨ ∃ sdp, answer = some sdp ∧
      (f.answerCreated key answer = (f, [.answerReady key sdp]) ∨
        ∃ leaf, f.leaves[key]? = some leaf ∧ f.answerCreated key answer =
          ({ f with leaves := f.leaves.insert key { leaf with initialDone := true } },
            [.answerReady key sdp])) := by
  rw [answerCreated.eq_def]
  cases answer with
  | none => exact .inl rfl
  | some sdp =>
    cases found : f.leaves[key]? with
    | none => exact .inr ⟨sdp, rfl, .inl rfl⟩
    | some leaf => exact .inr ⟨sdp, rfl, .inr ⟨leaf, rfl, rfl⟩⟩

/-! ### The branches follow the routing -/

/-- Every branch is one of the routing: it starts at the tee of a leaf, and ends where another one is
connected. -/
structure Relays (f : RoomForwarder) : Prop where
  joined : ∀ k, k ∈ f.routing.leaves → k ∈ f.leaves
  fits : ∀ (e : ForwardEdge) (b : Branch), f.branches[e]? = some b → e ∈ f.routing.edges ∧
    (f.tee e.src).isSome ∧ f.leaves[e.sub]?.map Leaf.webrtc = some b.webrtc

/-- The stream of every leaf goes to all others. -/
def Complete (f : RoomForwarder) : Prop :=
  ∀ (e : ForwardEdge) (tee : Nat), e ∈ f.routing.edges → f.tee e.src = some tee →
    ∃ b, f.branches[e]? = some b ∧ b.tee = tee

theorem Relays.new : Relays new := by
  refine ⟨fun k member => absurd member ExtTreeSet.not_mem_empty, fun e b present => ?_⟩
  simp [RoomForwarder.new] at present

theorem Complete.new : Complete new := by
  intro e tee member
  exact absurd (ForwarderRouting.mem_edges.mp member).1 ExtTreeSet.not_mem_empty

theorem mem_routing_addLeaf {r : ForwarderRouting} {key k : Bytes} (fresh : key ∉ r.leaves) :
    k ∈ (r.addLeaf key).1.leaves ↔ k ∈ r.leaves ∨ k = key ∧ key ≠ [] := by
  rw [ForwarderRouting.addLeaf]
  by_cases blank : key = []
  · simp [blank]
  · have missing : ¬(decide (key = []) || r.leaves.contains key) = true := by
      simpa [blank, ← ExtTreeSet.mem_iff_contains] using fresh
    rw [if_neg missing, ExtTreeSet.mem_insert, Std.compare_eq_iff_eq]
    grind

theorem mem_added {r : ForwarderRouting} {key : Bytes} (fresh : key ∉ r.leaves) {e : ForwardEdge} :
    e ∈ ((r.addLeaf key).2.filter fun e => e.sub = key) ↔
      e.src ∈ r.leaves ∧ e.sub = key ∧ key ≠ [] := by
  rw [ForwarderRouting.addLeaf]
  by_cases blank : key = []
  · simp [blank]
  · have missing : ¬(decide (key = []) || r.leaves.contains key) = true := by
      simpa [blank, ← ExtTreeSet.mem_iff_contains] using fresh
    rw [if_neg missing]
    simp only [List.mem_filter, ForwardEdge.mem_sorted, ForwarderRouting.mem_bothWays,
      ExtTreeSet.mem_toList, decide_eq_true_eq]
    grind

theorem mem_routing_removeLeaf {r : ForwarderRouting} {key k : Bytes} :
    k ∈ (r.removeLeaf key).1.leaves ↔ k ∈ r.leaves ∧ k ≠ key := by
  rw [ForwarderRouting.removeLeaf]
  split
  · rw [ExtTreeSet.mem_erase, ne_eq, Std.compare_eq_iff_eq]
    grind
  next unknown =>
    have missing : key ∉ r.leaves := mt ExtTreeSet.mem_iff_contains.mp unknown
    grind

theorem mem_removed {r : ForwarderRouting} {key : Bytes} {e : ForwardEdge} (member : e ∈ r.edges) :
    e ∈ (r.removeLeaf key).2 ↔ e.src = key ∨ e.sub = key := by
  obtain ⟨src, sub, apart⟩ := ForwarderRouting.mem_edges.mp member
  rw [ForwarderRouting.removeLeaf]
  split
  · simp only [ForwardEdge.mem_sorted, ForwarderRouting.mem_bothWays, ExtTreeSet.mem_toList,
      ExtTreeSet.mem_erase, ne_eq, Std.compare_eq_iff_eq]
    grind
  next unknown =>
    have missing : key ∉ r.leaves := mt ExtTreeSet.mem_iff_contains.mp unknown
    simp only [List.not_mem_nil, false_iff]
    grind

theorem tee_insert {key k : Bytes} {leaf : Leaf} {routing : ForwarderRouting}
    {branches : ExtTreeMap ForwardEdge Branch} :
    tee ⟨routing, f.leaves.insert key leaf, branches⟩ k = if k = key then leaf.srcTee else f.tee k := by
  rw [tee, ExtTreeMap.getElem?_insert]
  by_cases here : k = key
  · rw [if_pos (Std.compare_eq_iff_eq.mpr here.symm), if_pos here, Option.bind_some]
  · rw [if_neg fun equal => here (Std.compare_eq_iff_eq.mp equal).symm, if_neg here, tee]

theorem leaves_insert_of_ne {key k : Bytes} {leaf : Leaf} (apart : k ≠ key) :
    (f.leaves.insert key leaf)[k]? = f.leaves[k]? := by
  rw [ExtTreeMap.getElem?_insert, if_neg fun equal => apart (Std.compare_eq_iff_eq.mp equal).symm]

/-- A round of wiring over edges of the routing. -/
theorem Relays.wireEdges (relays : f.Relays) {link : Linking} {l : List ForwardEdge}
    (routed : ∀ e ∈ l, e ∈ f.routing.edges) : (wireEdges link f l).1.Relays := by
  obtain ⟨routing, leaves, branches⟩ := @wireEdges_spec f link l
  constructor
  · rw [routing, leaves]
    exact relays.joined
  · intro e b present
    rw [branches, Option.or_eq_some_iff] at present
    rw [routing, leaves, tee, leaves, ← tee]
    obtain old | ⟨-, made⟩ := present
    · exact relays.fits e b old
    · by_cases member : e ∈ l
      · rw [if_pos member] at made
        obtain ⟨-, heard, ending, -⟩ := branchFor_eq_some_iff.mp made
        exact ⟨routed e member, by simp [heard], ending⟩
      · rw [if_neg member] at made
        cases made

/-- The leaf that joins is not in the routing yet, whether or not its offer parses. -/
theorem Relays.admitted (relays : f.Relays) {key : Bytes} {leaf : Leaf} (fresh : key ∉ f.leaves) :
    Relays ⟨(f.routing.addLeaf key).1, f.leaves.insert key leaf, f.branches⟩ ∧
      Relays { f with leaves := f.leaves.insert key leaf } := by
  have unrouted : key ∉ f.routing.leaves := mt (relays.joined key) fresh
  have inside : ∀ k, k ∈ f.leaves.insert key leaf ↔ k = key ∨ k ∈ f.leaves := by
    intro k
    rw [ExtTreeMap.mem_insert, Std.compare_eq_iff_eq, eq_comm]
  have kept : ∀ (e : ForwardEdge) (b : Branch), f.branches[e]? = some b →
      e ∈ f.routing.edges ∧ e.src ≠ key ∧ e.sub ≠ key := by
    intro e b present
    have member := (relays.fits e b present).1
    obtain ⟨src, sub, -⟩ := ForwarderRouting.mem_edges.mp member
    exact ⟨member, fun same => unrouted (same ▸ src), fun same => unrouted (same ▸ sub)⟩
  constructor
  · refine ⟨fun k member => ?_, fun e b present => ?_⟩
    · obtain old | ⟨rfl, -⟩ := (mem_routing_addLeaf unrouted).mp member
      · exact (inside k).mpr (.inr (relays.joined k old))
      · exact (inside k).mpr (.inl rfl)
    · obtain ⟨member, src, sub⟩ := kept e b present
      obtain ⟨-, heard, ending⟩ := relays.fits e b present
      obtain ⟨srcMember, subMember, apart⟩ := ForwarderRouting.mem_edges.mp member
      refine ⟨ForwarderRouting.mem_edges.mpr ⟨(mem_routing_addLeaf unrouted).mpr (.inl srcMember),
        (mem_routing_addLeaf unrouted).mpr (.inl subMember), apart⟩, ?_, ?_⟩
      · rwa [tee_insert, if_neg src]
      · rwa [leaves_insert_of_ne sub]
  · refine ⟨fun k member => (inside k).mpr (.inr (relays.joined k member)), fun e b present => ?_⟩
    obtain ⟨member, src, sub⟩ := kept e b present
    obtain ⟨-, heard, ending⟩ := relays.fits e b present
    refine ⟨member, ?_, ?_⟩
    · rwa [tee_insert, if_neg src]
    · rwa [leaves_insert_of_ne sub]

theorem Relays.addLeaf (relays : f.Relays) (key : Bytes) (webrtc : Option Nat) (parses : Bool)
    (link : Linking) : (f.addLeaf key webrtc parses link).1.Relays := by
  obtain same | ⟨fresh, w, stuck | joined⟩ := f.addLeaf_cases key webrtc parses link
  · rwa [same]
  · rw [stuck]
    exact (relays.admitted fresh).2
  · have unrouted : key ∉ f.routing.leaves := mt (relays.joined key) fresh
    rw [joined]
    refine (relays.admitted fresh).1.wireEdges fun e member => ?_
    obtain ⟨src, sub, blank⟩ := (mem_added unrouted).mp member
    refine ForwarderRouting.mem_edges.mpr ⟨(mem_routing_addLeaf unrouted).mpr (.inl src),
      (mem_routing_addLeaf unrouted).mpr (.inr ⟨sub, blank⟩), fun same => ?_⟩
    exact unrouted (sub ▸ same ▸ src)

/-- A leaf that is connected where it was. -/
theorem Relays.updated (relays : f.Relays) {key : Bytes} {leaf leaf' : Leaf}
    (found : f.leaves[key]? = some leaf) (connected : leaf'.webrtc = leaf.webrtc)
    (heard : leaf.srcTee.isSome → leaf'.srcTee.isSome) :
    Relays { f with leaves := f.leaves.insert key leaf' } := by
  refine ⟨fun k member => ?_, fun e b present => ?_⟩
  · exact ExtTreeMap.mem_insert.mpr (.inr (relays.joined k member))
  · obtain ⟨member, heard', ending⟩ := relays.fits e b present
    refine ⟨member, ?_, ?_⟩
    · rw [tee_insert]
      split
      next here =>
        rw [here, tee, found, Option.bind_some] at heard'
        exact heard heard'
      · exact heard'
    · by_cases here : e.sub = key
      · rw [here, found] at ending
        rw [here, ExtTreeMap.getElem?_insert_self, Option.map_some, connected]
        exact ending
      · rwa [leaves_insert_of_ne here]

theorem mem_subscribed {r : ForwarderRouting} {key : Bytes} {e : ForwardEdge} :
    e ∈ ((r.subscribersOf key).map fun sub => ForwardEdge.mk key sub) ↔ e.src = key ∧ e ∈ r.edges := by
  rw [List.mem_map, ForwarderRouting.mem_edges]
  constructor
  · rintro ⟨sub, member, rfl⟩
    exact ⟨rfl, ForwarderRouting.mem_subscribersOf.mp member⟩
  · rintro ⟨rfl, member⟩
    exact ⟨e.sub, ForwarderRouting.mem_subscribersOf.mpr member, rfl⟩

theorem Relays.padAdded (relays : f.Relays) (key : Bytes) (tee : Option Nat) (link : Linking) :
    (f.padAdded key tee link).1.Relays := by
  obtain same | ⟨t, leaf, found, wired⟩ := f.padAdded_cases key tee link
  · rwa [same]
  · have kept : Relays { f with leaves := f.leaves.insert key { leaf with srcTee := some t } } :=
      relays.updated found rfl fun _ => rfl
    rw [wired]
    exact kept.wireEdges fun e member => (mem_subscribed.mp member).2

theorem Relays.answerCreated (relays : f.Relays) (key : Bytes) (answer : Option Bytes) :
    (f.answerCreated key answer).1.Relays := by
  obtain same | ⟨sdp, -, same | ⟨leaf, found, done⟩⟩ := f.answerCreated_cases key answer
  · rwa [same]
  · rwa [same]
  · rw [done]
    exact relays.updated found rfl id

/-- What is left when a leaf has left. -/
theorem removeLeaf_spec {key : Bytes} (known : key ∈ f.leaves) :
    (f.removeLeaf key).routing = (f.routing.removeLeaf key).1 ∧
      (f.removeLeaf key).leaves = f.leaves.erase key ∧
        ∀ e, (f.removeLeaf key).branches[e]? =
          if e ∈ (f.routing.removeLeaf key).2 then none else f.branches[e]? := by
  obtain ⟨leaves, branches⟩ := @foldl_tearEdge f (f.routing.removeLeaf key).2
  rw [RoomForwarder.removeLeaf, if_pos (ExtTreeMap.mem_iff_contains.mp known)]
  exact ⟨rfl, congrArg (ExtTreeMap.erase · key) leaves, branches⟩

theorem leaves_erase_of_ne {key k : Bytes} (apart : k ≠ key) :
    (f.leaves.erase key)[k]? = f.leaves[k]? := by
  rw [ExtTreeMap.getElem?_erase, if_neg fun equal => apart (Std.compare_eq_iff_eq.mp equal).symm]

theorem Relays.removeLeaf (relays : f.Relays) {key : Bytes} : (f.removeLeaf key).Relays := by
  by_cases known : key ∈ f.leaves
  · obtain ⟨routing, leaves, branches⟩ := removeLeaf_spec known
    constructor
    · intro k member
      rw [routing, mem_routing_removeLeaf] at member
      rw [leaves, ExtTreeMap.mem_erase, ne_eq, Std.compare_eq_iff_eq]
      exact ⟨fun same => member.2 same.symm, relays.joined k member.1⟩
    · intro e b present
      rw [branches] at present
      split at present
      · cases present
      next remains =>
        obtain ⟨member, heard, ending⟩ := relays.fits e b present
        -- neither end of it has left
        obtain ⟨src, sub⟩ := not_or.mp (mt (mem_removed member).mpr remains)
        obtain ⟨srcMember, subMember, apart⟩ := ForwarderRouting.mem_edges.mp member
        refine ⟨?_, ?_, ?_⟩
        · rw [routing]
          exact ForwarderRouting.mem_edges.mpr ⟨mem_routing_removeLeaf.mpr ⟨srcMember, src⟩,
            mem_routing_removeLeaf.mpr ⟨subMember, sub⟩, apart⟩
        · rwa [tee, leaves, leaves_erase_of_ne src]
        · rwa [leaves, leaves_erase_of_ne sub]
  · rw [RoomForwarder.removeLeaf, if_neg (mt ExtTreeMap.mem_iff_contains.mpr known)]
    exact relays

/-- A round of wiring completes what it has left out, if every element can be linked. -/
theorem Complete.wireEdges {link : Linking} {l : List ForwardEdge} (linked : ∀ e, (link e).isSome)
    (joined : ∀ k, k ∈ f.routing.leaves → k ∈ f.leaves)
    (others : ∀ e tee, e ∈ f.routing.edges → f.tee e.src = some tee →
      (∃ b, f.branches[e]? = some b ∧ b.tee = tee) ∨ f.branches[e]? = none ∧ e ∈ l) :
    (wireEdges link f l).1.Complete := by
  obtain ⟨routing, leaves, branches⟩ := @wireEdges_spec f link l
  intro e tee member heard
  rw [routing] at member
  rw [RoomForwarder.tee, leaves, ← RoomForwarder.tee] at heard
  rw [branches]
  obtain ⟨b, present, same⟩ | ⟨missing, inside⟩ := others e tee member heard
  · exact ⟨b, by rw [present, Option.some_or], same⟩
  · obtain ⟨-, sub, apart⟩ := ForwarderRouting.mem_edges.mp member
    obtain ⟨pp, connected⟩ := Option.isSome_iff_exists.mp
      (ExtTreeMap.isSome_getElem?_iff_mem.mpr (joined e.sub sub))
    obtain ⟨payName, made⟩ := Option.isSome_iff_exists.mp (linked e)
    refine ⟨⟨tee, pp.webrtc, payName⟩, ?_, rfl⟩
    rw [missing, Option.none_or, if_pos inside, branchFor_eq_some_iff]
    exact ⟨apart, heard, by rw [connected, Option.map_some], made⟩

theorem Complete.addLeaf (complete : f.Complete) (relays : f.Relays) (key : Bytes)
    (webrtc : Option Nat) (parses : Bool) {link : Linking} (linked : ∀ e, (link e).isSome) :
    (f.addLeaf key webrtc parses link).1.Complete := by
  obtain same | ⟨fresh, w, stuck | joined⟩ := f.addLeaf_cases key webrtc parses link
  · rwa [same]
  · rw [stuck]
    intro e tee member heard
    rw [tee_insert] at heard
    split at heard
    · cases heard
    · exact complete e tee member heard
  · have unrouted : key ∉ f.routing.leaves := mt (relays.joined key) fresh
    rw [joined]
    refine Complete.wireEdges linked (relays.admitted fresh).1.joined fun e tee member heard => ?_
    obtain ⟨src, sub, apart⟩ := ForwarderRouting.mem_edges.mp member
    rw [mem_routing_addLeaf unrouted] at src sub
    rw [tee_insert] at heard
    split at heard
    · cases heard
    next other =>
      -- the stream is that of an old leaf
      have old : e.src ∈ f.routing.leaves := src.resolve_right fun both => other both.1
      obtain sub | ⟨sub, blank⟩ := sub
      · exact .inl (complete e tee (ForwarderRouting.mem_edges.mpr ⟨old, sub, apart⟩) heard)
      · refine .inr ⟨?_, (mem_added unrouted).mpr ⟨old, sub, blank⟩⟩
        refine Option.eq_none_iff_forall_ne_some.mpr fun b present => ?_
        have known := (ForwarderRouting.mem_edges.mp (relays.fits e b present).1).2.1
        exact unrouted (sub ▸ known)

theorem Complete.padAdded (complete : f.Complete) (relays : f.Relays) {key : Bytes}
    (first : f.tee key = none) (tee : Option Nat) {link : Linking} (linked : ∀ e, (link e).isSome) :
    (f.padAdded key tee link).1.Complete := by
  obtain same | ⟨t, leaf, found, wired⟩ := f.padAdded_cases key tee link
  · rwa [same]
  · rw [wired]
    refine Complete.wireEdges linked (fun k member => ?_) fun e tee member heard => ?_
    · exact ExtTreeMap.mem_insert.mpr (.inr (relays.joined k member))
    · rw [tee_insert] at heard
      split at heard
      next here =>
        refine .inr ⟨?_, mem_subscribed.mpr ⟨here, member⟩⟩
        refine Option.eq_none_iff_forall_ne_some.mpr fun b present => ?_
        have before := (relays.fits e b present).2.1
        rw [here, first] at before
        cases before
      · exact .inl (complete e tee member heard)

theorem Complete.answerCreated (complete : f.Complete) (key : Bytes) (answer : Option Bytes) :
    (f.answerCreated key answer).1.Complete := by
  obtain same | ⟨sdp, -, same | ⟨leaf, found, done⟩⟩ := f.answerCreated_cases key answer
  · rwa [same]
  · rwa [same]
  · rw [done]
    intro e tee member heard
    rw [tee_insert] at heard
    split at heard
    next here =>
      refine complete e tee member ?_
      rw [here, RoomForwarder.tee, found]
      exact heard
    · exact complete e tee member heard

theorem Complete.removeLeaf (complete : f.Complete) (key : Bytes) : (f.removeLeaf key).Complete := by
  by_cases known : key ∈ f.leaves
  · obtain ⟨routing, leaves, branches⟩ := removeLeaf_spec known
    intro e tee member heard
    rw [routing] at member
    obtain ⟨src, sub, apart⟩ := ForwarderRouting.mem_edges.mp member
    rw [mem_routing_removeLeaf] at src sub
    have before : e ∈ f.routing.edges := ForwarderRouting.mem_edges.mpr ⟨src.1, sub.1, apart⟩
    rw [RoomForwarder.tee, leaves, leaves_erase_of_ne src.2, ← RoomForwarder.tee] at heard
    rw [branches, if_neg (mt (mem_removed before).mp (not_or.mpr ⟨src.2, sub.2⟩))]
    exact complete e tee before heard
  · rw [RoomForwarder.removeLeaf, if_neg (mt ExtTreeMap.mem_iff_contains.mpr known)]
    exact complete

/-! ### Any call -/

inductive Call
  | addLeaf (key : Bytes) (webrtc : Option Nat) (parses : Bool) (link : Linking)
  | removeLeaf (key : Bytes)
  | padAdded (key : Bytes) (tee : Option Nat) (link : Linking)
  | answerCreated (key : Bytes) (answer : Option Bytes)
  /-- `on_fwd_ice`. -/
  | iceCandidate (key candidate : Bytes)

def apply (f : RoomForwarder) : Call → RoomForwarder × List ForwarderSignal
  | .addLeaf key webrtc parses link => f.addLeaf key webrtc parses link
  | .removeLeaf key => (f.removeLeaf key, [])
  | .padAdded key tee link => f.padAdded key tee link
  | .answerCreated key answer => f.answerCreated key answer
  | .iceCandidate key candidate => (f, [.localIce key candidate])

/-- Every element can be made and linked, and a leaf has one stream. -/
def Smooth (f : RoomForwarder) : Call → Prop
  | .addLeaf _ _ _ link => ∀ e, (link e).isSome
  | .padAdded key _ link => f.tee key = none ∧ ∀ e, (link e).isSome
  | _ => True

theorem Relays.apply (relays : f.Relays) (call : Call) : (f.apply call).1.Relays := by
  cases call with
  | addLeaf key webrtc parses link => exact relays.addLeaf key webrtc parses link
  | removeLeaf key => exact relays.removeLeaf
  | padAdded key tee link => exact relays.padAdded key tee link
  | answerCreated key answer => exact relays.answerCreated key answer
  | iceCandidate key candidate => exact relays

theorem Complete.apply (complete : f.Complete) (relays : f.Relays) {call : Call}
    (smooth : f.Smooth call) : (f.apply call).1.Complete := by
  cases call with
  | addLeaf key webrtc parses link => exact complete.addLeaf relays key webrtc parses smooth
  | removeLeaf key => exact complete.removeLeaf key
  | padAdded key tee link => exact complete.padAdded relays smooth.1 tee smooth.2
  | answerCreated key answer => exact complete.answerCreated key answer
  | iceCandidate key candidate => exact complete

/-- A branch that a call makes is announced. -/
theorem apply_announced {call : Call} {e : ForwardEdge} {b : Branch}
    (present : (f.apply call).1.branches[e]? = some b) :
    f.branches[e]? = some b ∨ binding e b ∈ (f.apply call).2 := by
  cases call with
  | addLeaf key webrtc parses link =>
    change (f.addLeaf key webrtc parses link).1.branches[e]? = some b at present
    change _ ∨ _ ∈ (f.addLeaf key webrtc parses link).2
    obtain same | ⟨-, w, stuck | joined⟩ := f.addLeaf_cases key webrtc parses link
    · rw [same] at present
      exact .inl present
    · rw [stuck] at present
      exact .inl present
    · rw [joined] at present ⊢
      exact wireEdges_announced present
  | removeLeaf key =>
    by_cases known : key ∈ f.leaves
    · change (f.removeLeaf key).branches[e]? = some b at present
      rw [(removeLeaf_spec known).2.2] at present
      split at present
      · cases present
      · exact .inl present
    · change (f.removeLeaf key).branches[e]? = some b at present
      rw [RoomForwarder.removeLeaf, if_neg (mt ExtTreeMap.mem_iff_contains.mpr known)] at present
      exact .inl present
  | padAdded key tee link =>
    change (f.padAdded key tee link).1.branches[e]? = some b at present
    change _ ∨ _ ∈ (f.padAdded key tee link).2
    obtain same | ⟨t, leaf, found, wired⟩ := f.padAdded_cases key tee link
    · rw [same] at present
      exact .inl present
    · rw [wired] at present ⊢
      exact wireEdges_announced present
  | answerCreated key answer =>
    change (f.answerCreated key answer).1.branches[e]? = some b at present
    obtain same | ⟨sdp, -, same | ⟨leaf, found, done⟩⟩ := f.answerCreated_cases key answer
    · rw [same] at present
      exact .inl present
    · rw [same] at present
      exact .inl present
    · rw [done] at present
      exact .inl present
  | iceCandidate key candidate => exact .inl present

theorem wireEdges_binding {link : Linking} {l : List ForwardEdge} {signal : ForwarderSignal}
    (posted : signal ∈ (wireEdges link f l).2) : ∃ e b, signal = binding e b := by
  induction l generalizing f with
  | nil => cases posted
  | cons first rest ih =>
    simp only [wireEdges, List.mem_append] at posted
    obtain here | later := posted
    · by_cases old : first ∈ f.branches
      · rw [wireEdge_old old] at here
        cases here
      · rw [wireEdge_new old] at here
        cases made : f.branchFor link first with
        | none =>
          rw [made] at here
          cases here
        | some b =>
          rw [made] at here
          exact ⟨first, b, List.mem_singleton.mp here⟩
    · exact ih later

/-- A call posts no offer. -/
theorem apply_no_offer {call : Call} {leaf sdp : Bytes} :
    .renegotiateOffer leaf sdp ∉ (f.apply call).2 := by
  intro posted
  cases call with
  | addLeaf key webrtc parses link =>
    change _ ∈ (f.addLeaf key webrtc parses link).2 at posted
    obtain same | ⟨-, w, stuck | joined⟩ := f.addLeaf_cases key webrtc parses link
    · rw [same] at posted
      cases posted
    · rw [stuck] at posted
      cases posted
    · rw [joined] at posted
      obtain ⟨e, b, other⟩ := wireEdges_binding posted
      cases other
  | removeLeaf key => cases posted
  | padAdded key tee link =>
    change _ ∈ (f.padAdded key tee link).2 at posted
    obtain same | ⟨t, leaf, -, wired⟩ := f.padAdded_cases key tee link
    · rw [same] at posted
      cases posted
    · rw [wired] at posted
      obtain ⟨e, b, other⟩ := wireEdges_binding posted
      cases other
  | answerCreated key answer =>
    change _ ∈ (f.answerCreated key answer).2 at posted
    obtain same | ⟨sdp, -, same | ⟨leaf, -, same⟩⟩ := f.answerCreated_cases key answer
    · rw [same] at posted
      cases posted
    · rw [same] at posted
      cases List.mem_singleton.mp posted
    · rw [same] at posted
      cases List.mem_singleton.mp posted
  | iceCandidate key candidate => cases List.mem_singleton.mp posted

/-- A leaf whose initial round is done was so before, or its answer is posted now. -/
theorem apply_done {call : Call} {key : Bytes} {leaf : Leaf}
    (found : (f.apply call).1.leaves[key]? = some leaf) (done : leaf.initialDone) :
    (∃ leaf', f.leaves[key]? = some leaf' ∧ leaf'.initialDone) ∨
      ∃ sdp, .answerReady key sdp ∈ (f.apply call).2 := by
  have inserted : ∀ {k : Bytes} {leaf' : Leaf}, (f.leaves.insert k leaf')[key]? = some leaf →
      k = key ∧ leaf = leaf' ∨ f.leaves[key]? = some leaf := by
    intro k leaf' present
    rw [ExtTreeMap.getElem?_insert] at present
    split at present
    next here =>
      cases present
      exact .inl ⟨Std.compare_eq_iff_eq.mp here, rfl⟩
    · exact .inr present
  cases call with
  | addLeaf k webrtc parses link =>
    refine .inl ?_
    change (f.addLeaf k webrtc parses link).1.leaves[key]? = some leaf at found
    obtain same | ⟨-, w, stuck | joined⟩ := f.addLeaf_cases k webrtc parses link
    · rw [same] at found
      exact ⟨leaf, found, done⟩
    · rw [stuck] at found
      obtain ⟨-, rfl⟩ | old := inserted found
      · cases done
      · exact ⟨leaf, old, done⟩
    · rw [joined, wireEdges_spec.2.1] at found
      obtain ⟨-, rfl⟩ | old := inserted found
      · cases done
      · exact ⟨leaf, old, done⟩
  | removeLeaf k =>
    refine .inl ⟨leaf, ?_, done⟩
    change (f.removeLeaf k).leaves[key]? = some leaf at found
    by_cases known : k ∈ f.leaves
    · rw [(removeLeaf_spec known).2.1, ExtTreeMap.getElem?_erase] at found
      split at found
      · cases found
      · exact found
    · rwa [RoomForwarder.removeLeaf, if_neg (mt ExtTreeMap.mem_iff_contains.mpr known)] at found
  | padAdded k tee link =>
    refine .inl ?_
    change (f.padAdded k tee link).1.leaves[key]? = some leaf at found
    obtain same | ⟨t, leaf', known, wired⟩ := f.padAdded_cases k tee link
    · rw [same] at found
      exact ⟨leaf, found, done⟩
    · rw [wired, wireEdges_spec.2.1] at found
      obtain ⟨rfl, rfl⟩ | old := inserted found
      · exact ⟨leaf', known, done⟩
      · exact ⟨leaf, old, done⟩
  | answerCreated k answer =>
    change (f.answerCreated k answer).1.leaves[key]? = some leaf at found
    change _ ∨ ∃ sdp, _ ∈ (f.answerCreated k answer).2
    obtain same | ⟨sdp, -, same | ⟨leaf', known, same⟩⟩ := f.answerCreated_cases k answer
    · rw [same] at found
      exact .inl ⟨leaf, found, done⟩
    · rw [same] at found
      exact .inl ⟨leaf, found, done⟩
    · rw [same] at found ⊢
      obtain ⟨rfl, -⟩ | old := inserted found
      · exact .inr ⟨sdp, List.mem_singleton.mpr rfl⟩
      · exact .inl ⟨leaf, old, done⟩
  | iceCandidate k candidate => exact .inl ⟨leaf, found, done⟩

end RoomForwarder

end FinBit.Desktop
