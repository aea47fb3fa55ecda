/-
The cluster over byte pipes. Every stream writer task (`spawn_stream_writer`)
and the stream reader at its other end (`read_stream`) are a framed pipe of
their own: the writer opens a stream, writes the channel and then, frame by
frame, what its queue holds; bytes cross in any portions and may stop at any
byte; the reader splits what has arrived by the lengths it finds.

`reliable_fifo`: what a session is given reliably over one connection and
channel is a prefix of what was handed to `write_reliable` there.
`refines`: with every frame short enough for its length field, whatever the
cluster reaches over pipes it also reaches frame by frame, so what is proved
of `Cluster` holds over pipes.
-/
import Gdiroh.Session.ClusterFacts
import Gdiroh.Lib.FramedPipe
import Gdiroh.Lib.Logs

namespace Gdiroh.Session
open FramedPipe

structure Fabric where
  cluster : Cluster
  /-- The pipe of each session's writers, by the writer's place. -/
  pipes : Node → Nat → Pipe := fun _ _ => {}

namespace Fabric

def init : Fabric where
  cluster := .init

inductive Action where
  /-- Anything but the reading of a frame. -/
  | cluster (a : Cluster.Action)
  /-- A writer, its stream or the stream's reader takes a step. -/
  | pipe (n : Node) (writer : Nat) (act : Act)

/-- Frames leave a pipe here, never off the cluster's own queues. -/
def Action.readsFrame : Cluster.Action → Bool
  | .readFrame .. => true
  | _ => false

def setPipe (f : Fabric) (n : Node) (writer : Nat) (p : Pipe) : Fabric :=
  { f with pipes := fun m w => if m = n ∧ w = writer then p else f.pipes m w }

/-- What the stream reader does with the frame it has just read. -/
def deliver (f : Fabric) (n : Node) (c : Connection) (p : Pipe) : Act → Option Fabric
  | .readFrame =>
    p.next.bind fun frame => p.tag.bind fun channel =>
      (f.cluster.receive n c channel frame).map fun k => { f with cluster := k }
  | _ => some f

def step (f : Fabric) : Action → Option Fabric
  | .cluster a =>
    if Action.readsFrame a then none else (f.cluster.step a).map fun k => { f with cluster := k }
  | .pipe n writer act =>
    let s := (f.cluster.members n).state
    match s.writers[writer]? with
    | none => none
    | some (c, channel) =>
      let p := f.pipes n writer
      (p.step channel (s.queuedTo writer) act).bind fun p' => (f.deliver n c p act).map (·.setPipe n writer p')

/-- The payloads of the reliable packets a session was given over a
connection and channel, oldest first. -/
def received (f : Fabric) (m : Node) (c : Connection) (channel : Int32) : List Bytes :=
  (f.cluster.log m).filterMap fun e =>
    if e.1 = c ∧ e.2.channel = channel ∧ e.2.mode = .reliable then some e.2.data else none

/-! ## What one step does -/

/-- The outcomes of `step`: a cluster action, a turn at one end of a pipe
that passes nothing on, or a frame that is read and reported. -/
inductive Stepped (f : Fabric) : Action → Fabric → Prop
  | cluster {a k} (hr : Action.readsFrame a = false) (hk : f.cluster.step a = some k) :
      Stepped f (.cluster a) { f with cluster := k }
  | turn {n w act c channel p} (hw : (f.cluster.members n).state.writers[w]? = some (c, channel))
      (hp : (f.pipes n w).step channel ((f.cluster.members n).state.queuedTo w) act = some p)
      (he : p.emitted = (f.pipes n w).emitted) : Stepped f (.pipe n w act) (f.setPipe n w p)
  | frame {n w c channel tag frame p k} (hw : (f.cluster.members n).state.writers[w]? = some (c, channel))
      (hp : (f.pipes n w).step channel ((f.cluster.members n).state.queuedTo w) .readFrame = some p)
      (he : p.emitted = (f.pipes n w).emitted ++ [frame]) (ht : (f.pipes n w).tag = some tag)
      (hk : f.cluster.receive n c tag frame = some k) :
      Stepped f (.pipe n w .readFrame) ({ f with cluster := k }.setPipe n w p)

theorem step_cases {f f' : Fabric} {a : Action} (h : step f a = some f') : Stepped f a f' := by
  cases a with
  | cluster a =>
    simp only [step] at h
    split at h
    · simp at h
    next hr =>
    simp only [Option.map_eq_some_iff] at h
    obtain ⟨k, hk, rfl⟩ := h
    exact .cluster (by simpa using hr) hk
  | pipe n w act =>
    simp only [step] at h
    split at h
    · simp at h
    next c channel hw =>
    simp only [Option.bind_eq_some_iff, Option.map_eq_some_iff] at h
    obtain ⟨p, hp, f₁, hd, rfl⟩ := h
    cases act with
    | readFrame =>
      simp only [deliver, Option.bind_eq_some_iff, Option.map_eq_some_iff] at hd
      obtain ⟨frame, hnext, tag, ht, k, hk, rfl⟩ := hd
      refine .frame hw hp ?_ ht hk
      exact Pipe.emitted_readFrame hp hnext
    | _ =>
      simp only [deliver, Option.some.injEq] at hd
      subst hd
      exact .turn hw hp (Pipe.emitted_step hp (by simp))

/-- A connection's two ends know each other. -/
theorem other_inj {n n' m : Node} {c : Connection} (h : Cluster.other n c = some m)
    (h' : Cluster.other n' c = some m) : n = n' := by
  cases n with
  | host =>
    obtain rfl : Node.client c = m := Option.some.inj h
    cases n' with
    | host => rfl
    | client d =>
      simp only [Cluster.other] at h'
      split at h' <;> simp at h'
  | client d =>
    simp only [Cluster.other] at h
    split at h
    · next hd =>
      obtain rfl : Node.host = m := Option.some.inj h
      cases n' with
      | host => simp [Cluster.other] at h'
      | client d' =>
        simp only [Cluster.other] at h'
        split at h'
        · next hd' => rw [hd, hd']
        · simp at h'
    · simp at h

theorem other_iff {n m r : Node} {c d : Connection} {P : Prop} (ho : Cluster.other m d = some r) :
    (Cluster.other n c = some r ∧ d = c ∧ P) ↔ (m = n ∧ d = c ∧ P) := by
  constructor
  · rintro ⟨ho', rfl, hP⟩
    exact ⟨other_inj ho ho', rfl, hP⟩
  · rintro ⟨rfl, rfl, hP⟩
    exact ⟨ho, rfl, hP⟩

/-- What a frame read off a pipe adds to what was received. -/
theorem received_receive {f : Fabric} {n : Node} {c : Connection} {tag : Int32} {frame : Bytes} {k : Cluster}
    (hk : f.cluster.receive n c tag frame = some k) (m : Node) (d : Connection) {channel : Int32}
    (hch : channel ≠ controlChannel) : { f with cluster := k }.received m d channel =
      f.received m d channel ++ if Cluster.other n c = some m ∧ d = c ∧ channel = tag then [frame] else [] := by
  obtain ⟨r, peer, hr, rfl⟩ := Cluster.receive_eq_some.1 hk
  obtain ⟨hother, -⟩ := Cluster.receiver_eq_some.1 hr
  change List.filterMap _ ((f.cluster.report r c (readFrame peer tag frame)).log m) = _
  rw [Cluster.readFrame_log, hother, List.filterMap_append]
  congr 1
  by_cases hm : m = r
  · subst hm
    by_cases htag : tag = controlChannel
    · simp [htag, hch]
    · by_cases hd : d = c ∧ channel = tag
      · obtain ⟨rfl, rfl⟩ := hd
        simp [htag]
      · have hd' : ¬ (c = d ∧ tag = channel) := fun h => hd ⟨h.1.symm, h.2.symm⟩
        simp [htag, hd, hd']
  · simp [hm, Ne.symm hm]

/-- Nothing else adds to it: a datagram's packet is never a reliable one. -/
theorem received_cluster {f : Fabric} {a : Cluster.Action} {k : Cluster} (hr : Action.readsFrame a = false)
    (hk : f.cluster.step a = some k) (m : Node) (c : Connection) (channel : Int32) :
    { f with cluster := k }.received m c channel = f.received m c channel := by
  rcases Cluster.step_log (Cluster.step_cases hk) m with hlog | ⟨n, d, p, -, -, hcame, hlog⟩
  · simp [received, hlog]
  · cases hcame with
    | frame ha => rw [ha] at hr; simp [Action.readsFrame] at hr
    | datagram _ hp =>
      have hmode := (readDatagram_some hp).2
      simp [received, hlog, hmode]

/-! ## The invariant -/

/-- Every pipe carries its own writer's frames, and what has come out of it
is what the other end was given on its channel. -/
structure Carried (f : Fabric) : Prop where
  sane : f.cluster.Sane
  sound : ∀ n w c channel, (f.cluster.members n).state.writers[w]? = some (c, channel) →
    Sound channel ((f.cluster.members n).state.handed c channel) (f.pipes n w)
  idle : ∀ n w, (f.cluster.members n).state.writers[w]? = none → f.pipes n w = {}
  received : ∀ n m c channel, Cluster.other n c = some m → channel ≠ controlChannel →
    ∀ w, (f.cluster.members n).state.writers[w]? = some (c, channel) →
    f.received m c channel = (f.pipes n w).emitted
  silent : ∀ n m c channel, Cluster.other n c = some m → channel ≠ controlChannel →
    (c, channel) ∉ (f.cluster.members n).state.writers → f.received m c channel = []
  counted : ∀ n w c channel, (f.cluster.members n).state.writers[w]? = some (c, channel) →
    f.cluster.read n c channel = (f.pipes n w).emitted.length
  uncounted : ∀ n c channel, (c, channel) ∉ (f.cluster.members n).state.writers → f.cluster.read n c channel = 0

theorem carried_init : Carried init where
  sane := Cluster.sane_init
  sound := by
    intro n w c channel hw
    cases n with
    | host => simp [init, Cluster.init, State.hosting] at hw
    | client d => simp [init, Cluster.init, State.joined, State.addLink] at hw
  idle := fun _ _ _ => rfl
  received := by
    intro n m c channel _ _ w hw
    cases n with
    | host => simp [init, Cluster.init, State.hosting] at hw
    | client d => simp [init, Cluster.init, State.joined, State.addLink] at hw
  silent := fun _ _ _ _ _ _ _ => rfl
  counted := by
    intro n w c channel hw
    cases n with
    | host => simp [init, Cluster.init, State.hosting] at hw
    | client d => simp [init, Cluster.init, State.joined, State.addLink] at hw
  uncounted := fun _ _ _ _ => rfl

theorem writer_unique {s : State} (h : s.Wired) {w w' : Nat} {x : Connection × Int32} (hw : s.writers[w]? = some x)
    (hw' : s.writers[w']? = some x) : w = w' := by
  obtain ⟨hlt, hget⟩ := List.getElem?_eq_some_iff.1 hw
  obtain ⟨hlt', hget'⟩ := List.getElem?_eq_some_iff.1 hw'
  exact (h.unique.getElem_inj_iff).1 (hget.trans hget'.symm)

/-- A pipe is known by its member, connection and channel. -/
theorem pipe_iff {k : Cluster} (h : k.Sane) {n m : Node} {w v : Nat} {c d : Connection} {tag channel : Int32}
    (hw : (k.members n).state.writers[w]? = some (c, tag))
    (hv : (k.members m).state.writers[v]? = some (d, channel)) :
    (m = n ∧ d = c ∧ channel = tag) ↔ (m = n ∧ v = w) := by
  constructor
  · rintro ⟨rfl, rfl, rfl⟩
    exact ⟨rfl, writer_unique (h.wired m) hv hw⟩
  · rintro ⟨rfl, rfl⟩
    exact ⟨rfl, by simpa using hv.symm.trans hw⟩

/-- A cluster action may hand frames over and start writers; the pipes have
nothing to do with it. -/
theorem carried_cluster {f : Fabric} (h : Carried f) {a : Cluster.Action} {k : Cluster}
    (hr : Action.readsFrame a = false) (hk : f.cluster.step a = some k) : Carried { f with cluster := k } := by
  have hstep := Cluster.step_cases hk
  have hsane := Cluster.sane_step h.sane hstep
  have hgrow := fun n => (Cluster.step_moves hstep n).grows h.sane
  -- A writer is an old one, or new: then its channel was never written to.
  have hwriter : ∀ n w c channel, (k.members n).state.writers[w]? = some (c, channel) →
      (f.cluster.members n).state.writers[w]? = some (c, channel) ∨
      f.pipes n w = {} ∧ (c, channel) ∉ (f.cluster.members n).state.writers := by
    intro n w c channel hw
    rcases Logs.getElem?_or_none (hgrow n).1 w with he | he
    · exact .inl (he ▸ hw)
    · refine .inr ⟨h.idle n w he, fun hm => ?_⟩
      obtain ⟨w', hw'⟩ := List.getElem?_of_mem hm
      rcases Logs.getElem?_or_none (hgrow n).1 w' with he' | he'
      · have hsame := writer_unique (hsane.wired n) hw (he'.trans hw')
        rw [hsame, hw'] at he
        simp at he
      · rw [he'] at hw'
        simp at hw'
  have hread : ∀ n c channel, k.read n c channel = f.cluster.read n c channel := by
    intro n c channel
    rcases Cluster.step_read hstep n c channel with he | ⟨rfl, -⟩
    · exact he
    · simp [Action.readsFrame] at hr
  refine ⟨hsane, fun n w c channel hw => ?_, fun n w hw => ?_, fun n m c channel ho hch w hw => ?_,
    fun n m c channel ho hch hw => ?_, fun n w c channel hw => ?_, fun n c channel hw => ?_⟩
  · rcases hwriter n w c channel hw with hw | ⟨hp, -⟩
    · obtain ⟨more, he⟩ := (hgrow n).2 c channel
      rw [← he]
      exact (h.sound n w c channel hw).hand more
    · change Sound channel _ (f.pipes n w)
      rw [hp]
      exact Sound.init
  · rcases Logs.getElem?_or_none (hgrow n).1 w with he | he
    · exact h.idle n w (he ▸ hw)
    · exact h.idle n w he
  · rw [received_cluster hr hk]
    rcases hwriter n w c channel hw with hw | ⟨hp, hno⟩
    · exact h.received n m c channel ho hch w hw
    · change f.received m c channel = (f.pipes n w).emitted
      rw [hp]
      exact h.silent n m c channel ho hch hno
  · rw [received_cluster hr hk]
    exact h.silent n m c channel ho hch fun hm => hw ((hgrow n).1.subset hm)
  · change k.read n c channel = (f.pipes n w).emitted.length
    rw [hread]
    rcases hwriter n w c channel hw with hw | ⟨hp, hno⟩
    · exact h.counted n w c channel hw
    · rw [hp]
      exact h.uncounted n c channel hno
  · change k.read n c channel = 0
    rw [hread]
    exact h.uncounted n c channel fun hm => hw ((hgrow n).1.subset hm)

theorem setPipe_pipes (f : Fabric) (n : Node) (w : Nat) (p : Pipe) (m : Node) (v : Nat) :
    (f.setPipe n w p).pipes m v = if m = n ∧ v = w then p else f.pipes m v := rfl

/-- One turn of a pipe that passes nothing on. -/
theorem carried_turn {f : Fabric} (h : Carried f) {n : Node} {w : Nat} {act : Act} {c : Connection} {channel : Int32}
    {p : Pipe} (hw : (f.cluster.members n).state.writers[w]? = some (c, channel))
    (hp : (f.pipes n w).step channel ((f.cluster.members n).state.queuedTo w) act = some p)
    (he : p.emitted = (f.pipes n w).emitted) : Carried (f.setPipe n w p) := by
  rw [← (h.sane.wired n).handed_eq hw] at hp
  refine ⟨h.sane, fun m v d ch hv => ?_, fun m v hv => ?_, fun m r d ch ho hch v hv => ?_, h.silent,
    fun m v d ch hv => ?_, h.uncounted⟩
  · rw [setPipe_pipes]
    split
    · next hmv =>
      obtain ⟨rfl, rfl⟩ := hmv
      obtain ⟨rfl, rfl⟩ : c = d ∧ channel = ch := by simpa using hw.symm.trans hv
      exact (h.sound m v c channel hw).step hp
    · exact h.sound m v d ch hv
  · rw [setPipe_pipes]
    split
    · next hmv =>
      obtain ⟨rfl, rfl⟩ := hmv
      have hv : (f.cluster.members m).state.writers[v]? = none := hv
      rw [hw] at hv
      simp at hv
    · exact h.idle m v hv
  · rw [setPipe_pipes]
    split
    · next hmv =>
      obtain ⟨rfl, rfl⟩ := hmv
      rw [he]
      exact h.received m r d ch ho hch v hv
    · exact h.received m r d ch ho hch v hv
  · rw [setPipe_pipes]
    split
    · next hmv =>
      obtain ⟨rfl, rfl⟩ := hmv
      rw [he]
      exact h.counted m v d ch hv
    · exact h.counted m v d ch hv

/-- A frame is read: the pipe's channel is the one it was opened with, and
both sides count the frame. -/
theorem carried_frame {f : Fabric} (h : Carried f) {n : Node} {w : Nat} {c : Connection} {channel tag : Int32}
    {frame : Bytes} {p : Pipe} {k : Cluster} (hw : (f.cluster.members n).state.writers[w]? = some (c, channel))
    (hp : (f.pipes n w).step channel ((f.cluster.members n).state.queuedTo w) .readFrame = some p)
    (he : p.emitted = (f.pipes n w).emitted ++ [frame]) (ht : (f.pipes n w).tag = some tag)
    (hk : f.cluster.receive n c tag frame = some k) : Carried ({ f with cluster := k }.setPipe n w p) := by
  rw [← (h.sane.wired n).handed_eq hw] at hp
  obtain ⟨rfl, -⟩ := (h.sound n w c channel hw).tag_eq ht
  have hreceived := fun m d {ch : Int32} (hch : ch ≠ controlChannel) => received_receive hk m d hch
  have hwire : ∀ m, (f.cluster.members m).state.SameWire (k.members m).state := by
    intro m
    obtain ⟨r, peer, -, rfl⟩ := Cluster.receive_eq_some.1 hk
    exact Cluster.report_wire ..
  have hsane : k.Sane := by
    obtain ⟨r, peer, -, rfl⟩ := Cluster.receive_eq_some.1 hk
    refine h.sane.of_moves (a := .readFrame n c tag) ?_ (fun m => Cluster.report_moves r c _ m)
    simp [Cluster.countRead]
  have hread : ∀ m d ch, k.read m d ch =
      if m = n ∧ d = c ∧ ch = tag then f.cluster.read n c tag + 1 else f.cluster.read m d ch := by
    intro m d ch
    obtain ⟨r, peer, -, rfl⟩ := Cluster.receive_eq_some.1 hk
    simp only [Cluster.countRead, Cluster.report_read]
  have hno : ∀ {m d ch}, (d, ch) ∉ (f.cluster.members m).state.writers → ¬ (m = n ∧ d = c ∧ ch = tag) := by
    rintro m d ch hv ⟨rfl, rfl, rfl⟩
    exact hv (List.mem_of_getElem? hw)
  refine ⟨hsane, fun m v d ch hv => ?_, fun m v hv => ?_, fun m r d ch ho hch v hv => ?_,
    fun m r d ch ho hch hv => ?_, fun m v d ch hv => ?_, fun m d ch hv => ?_⟩
  · change (k.members m).state.writers[v]? = _ at hv
    change Sound ch ((k.members m).state.handed d ch) _
    rw [(hwire m).writers] at hv
    rw [(hwire m).handed, setPipe_pipes]
    split
    · next hmv =>
      obtain ⟨rfl, rfl⟩ := hmv
      obtain ⟨rfl, rfl⟩ : c = d ∧ tag = ch := by simpa using hw.symm.trans hv
      exact (h.sound m v c tag hw).step hp
    · exact h.sound m v d ch hv
  · change (k.members m).state.writers[v]? = _ at hv
    rw [(hwire m).writers] at hv
    rw [setPipe_pipes]
    split
    · next hmv =>
      obtain ⟨rfl, rfl⟩ := hmv
      rw [hw] at hv
      simp at hv
    · exact h.idle m v hv
  · change (k.members m).state.writers[v]? = _ at hv
    change { f with cluster := k }.received r d ch = _
    rw [(hwire m).writers] at hv
    rw [hreceived r d hch, h.received m r d ch ho hch v hv, setPipe_pipes]
    simp only [other_iff ho, pipe_iff h.sane hw hv]
    split
    · next hmv =>
      obtain ⟨rfl, rfl⟩ := hmv
      exact he.symm
    · rw [List.append_nil]
  · change (d, ch) ∉ (k.members m).state.writers at hv
    change { f with cluster := k }.received r d ch = _
    rw [(hwire m).writers] at hv
    rw [hreceived r d hch, h.silent m r d ch ho hch hv, if_neg fun hsame => hno hv ((other_iff ho).1 hsame),
      List.append_nil]
  · change (k.members m).state.writers[v]? = _ at hv
    change k.read m d ch = _
    rw [(hwire m).writers] at hv
    rw [hread, setPipe_pipes]
    simp only [pipe_iff h.sane hw hv]
    split
    · next hmv =>
      obtain ⟨rfl, rfl⟩ := hmv
      rw [he, List.length_append, h.counted m v c tag hw]
      rfl
    · exact h.counted m v d ch hv
  · change (d, ch) ∉ (k.members m).state.writers at hv
    change k.read m d ch = 0
    rw [(hwire m).writers] at hv
    rw [hread, if_neg (hno hv)]
    exact h.uncounted m d ch hv

theorem carried_step {f f' : Fabric} {a : Action} (h : Carried f) (hs : step f a = some f') : Carried f' := by
  cases step_cases hs with
  | cluster hr hk => exact carried_cluster h hr hk
  | turn hw hp he => exact carried_turn h hw hp he
  | frame hw hp he ht hk => exact carried_frame h hw hp he ht hk

theorem carried_run {as : List Action} {f : Fabric} (h : Machine.run step init as = some f) : Carried f :=
  Machine.run_invariant (fun _ _ _ => carried_step) h carried_init

/-! ## Reliable delivery -/

theorem signed_step {f f' : Fabric} {a : Action} (h : f.cluster.Signed) (hs : step f a = some f') :
    f'.cluster.Signed := by
  cases step_cases hs with
  | cluster hr hk => exact Cluster.signed_step h (Cluster.step_cases hk)
  | turn => exact h
  | frame hw hp he ht hk => exact h.receive hk

theorem logged_step {f f' : Fabric} {a : Action} (h : f.cluster.Logged) (hs : step f a = some f') :
    f'.cluster.Logged := by
  cases step_cases hs with
  | cluster hr hk => exact Cluster.logged_step h (Cluster.step_cases hk)
  | turn => exact h
  | frame hw hp he ht hk =>
    obtain ⟨r, peer, -, rfl⟩ := Cluster.receive_eq_some.1 hk
    exact h.report r _ _

/-- **Reliable delivery is FIFO and exactly once.** In every run, whatever a
session was given reliably over a connection on a channel is a prefix of
what the other end handed to `write_reliable` for it, as long as each of
these payloads is shorter than `2^32` bytes. The packets logged are the
packets emitted, and each names the peer its connection's readers were
started for. -/
theorem reliable_fifo {as : List Action} {f : Fabric} (h : Machine.run step init as = some f) {n m : Node}
    {c : Connection} {channel : Int32} (ho : Cluster.other n c = some m) (hch : channel ≠ controlChannel)
    (hlen : ∀ data ∈ (f.cluster.members n).state.handed c channel, data.length < 2 ^ 32) :
    f.received m c channel <+: (f.cluster.members n).state.handed c channel ∧
    packets (f.cluster.members m).state.events = (f.cluster.log m).map Prod.snd ∧
    ∀ e ∈ f.cluster.log m, (f.cluster.members m).state.readers.lookup e.1 = some e.2.peer := by
  have hc := carried_run h
  have hlogged : f.cluster.Logged := Machine.run_invariant (fun _ _ _ => logged_step) h Cluster.logged_init
  have hsigned : f.cluster.Signed := Machine.run_invariant (fun _ _ _ => signed_step) h Cluster.signed_init
  refine ⟨?_, hlogged m, hsigned m⟩
  by_cases hw : (c, channel) ∈ (f.cluster.members n).state.writers
  · obtain ⟨w, hw⟩ := List.getElem?_of_mem hw
    rw [hc.received n m c channel ho hch w hw]
    exact (hc.sound n w c channel hw).emitted_isPre hlen
  · rw [hc.silent n m c channel ho hch hw]
    exact List.nil_prefix

/-- The host sends two payloads to its client; the second is cut off after
its length. -/
def cutShort : List Action :=
  [.cluster (.accept 0 []), .cluster (.send .host (fun _ => none) [2] 2 5 .reliable [9, 8]),
    .cluster (.send .host (fun _ => none) [2] 2 5 .unreliable [7]),
    .pipe .host 1 .open, .pipe .host 1 (.write 4), .pipe .host 1 .take, .pipe .host 1 (.write 5),
    .pipe .host 1 (.carry 3), .pipe .host 1 (.carry 6), .pipe .host 1 .readTag, .pipe .host 1 (.write 1),
    .pipe .host 1 (.carry 1), .pipe .host 1 .readFrame, .pipe .host 1 .take, .pipe .host 1 (.write 4),
    .pipe .host 1 (.carry 4), .pipe .host 1 .fail]

theorem reliable_fifo_cutShort :
    ∃ f, Machine.run step init cutShort = some f ∧ f.received (.client 0) 0 5 = [[9, 8]] ∧
      f.received (.client 0) 0 5 <+: (f.cluster.members .host).state.handed 0 5 := by
  have hrun : ((Machine.run step init cutShort).map fun f =>
      (f.received (.client 0) 0 5, (f.cluster.members .host).state.handed 0 5)) =
      some ([[9, 8]], [[9, 8], [7]]) := by
    decide +kernel
  obtain ⟨f, hf, he⟩ := Option.map_eq_some_iff.1 hrun
  simp only [Prod.mk.injEq] at he
  have hlen : ∀ data ∈ (f.cluster.members .host).state.handed 0 5, data.length < 2 ^ 32 := by
    rw [he.2]
    decide
  exact ⟨f, hf, he.1, (reliable_fifo hf (n := .host) rfl (by decide) hlen).1⟩

/-! ## Back to whole frames -/

/-- The frames a session has handed over are never taken back. -/
theorem handed_mono {f f' : Fabric} {a : Action} (h : Carried f) (hs : Stepped f a f') (n : Node) (c : Connection)
    (channel : Int32) :
    (f.cluster.members n).state.handed c channel <+: (f'.cluster.members n).state.handed c channel := by
  cases hs with
  | cluster hr hk => exact ((Cluster.step_moves (Cluster.step_cases hk) n).grows h.sane).2 c channel
  | turn => exact List.prefix_refl _
  | frame hw hp he ht hk =>
    obtain ⟨r, peer, -, rfl⟩ := Cluster.receive_eq_some.1 hk
    change _ <+: ((f.cluster.report r _ _).members n).state.handed c channel
    rw [(Cluster.report_wire ..).handed]

/-- **Pipes refine queues of frames.** When every frame fits its length
field, the cluster state a run over pipes reaches is one that the cluster
reaches frame by frame. -/
theorem refines {as : List Action} {f : Fabric} (h : Machine.run step init as = some f)
    (hlen : ∀ n c channel, ∀ data ∈ (f.cluster.members n).state.handed c channel, data.length < 2 ^ 32) :
    ∃ bs, Machine.run Cluster.step Cluster.init bs = some f.cluster := by
  refine Machine.run_trace (I := fun _ f =>
    (∀ n c channel, ∀ data ∈ (f.cluster.members n).state.handed c channel, data.length < 2 ^ 32) →
      ∃ bs, Machine.run Cluster.step Cluster.init bs = some f.cluster)
    (fun _ => ⟨[], rfl⟩) (fun as f a f' hrun ih hstep hlen => ?_) h hlen
  have hc := carried_run hrun
  have hstepped := step_cases hstep
  have hgrow := handed_mono hc hstepped
  obtain ⟨bs, hbs⟩ := ih fun n c channel data hd => hlen n c channel data ((hgrow n c channel).subset hd)
  cases hstepped with
  | cluster hr hk => exact ⟨bs ++ [_], Machine.run_concat.2 ⟨_, hbs, hk⟩⟩
  | turn => exact ⟨bs, hbs⟩
  | @frame n w c channel tag frame p k hw hp he ht hk =>
    -- What the pipe passes on next is the frame the cluster would read.
    obtain ⟨rfl, -⟩ := (hc.sound n w c channel hw).tag_eq ht
    have hq := (hc.sane.wired n).handed_eq hw
    rw [← hq] at hp
    have hsound := (hc.sound n w c tag hw).step hp
    have hpre := hsound.emitted_isPre fun data hd => hlen n c tag data ((hgrow n c tag).subset hd)
    have hget : ((f.cluster.members n).state.handed c tag)[f.cluster.read n c tag]? = some frame := by
      obtain ⟨rest, hrest⟩ := hpre
      rw [← hrest, he, hc.counted n w c tag hw]
      simp
    refine ⟨bs ++ [.readFrame n c tag], Machine.run_concat.2 ⟨_, hbs, ?_⟩⟩
    simp only [Cluster.step, hget]
    exact hk

end Fabric
end Gdiroh.Session
