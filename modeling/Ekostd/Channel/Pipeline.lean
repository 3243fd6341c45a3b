/-
  The bounded channel as a pipeline — it drains.

  One thread receives until it is told that nobody is left, which is the loop
  `while let Ok(value) = recv()`; every other one sends its values through a
  sender of its own, and drops that.  The threads run at any speed, and wake
  spuriously as often as they like.

  * `Plan`, `Plan.system`: the threads and what they do;
  * `Plan.Inv`: how far every one is, and what it has sent;
  * `pipeline_drains`: the steps are bounded, and when there are none left all
    values have come through, those of a sender in order.
-/
import Ekostd.Lib.Passes
import Ekostd.Channel.Wakeup

namespace Ekostd.Channel

open Monitor

variable {ι T : Type*}

/-! ## The threads -/

/-- One thread receives, and every other one has a sender and values to send. -/
structure Plan (ι T : Type*) where
  consumer : ι
  handle : ι → ℕ
  values : ι → List T

/-- The channel, and the calls that the senders have still to make. -/
structure Pipeline (ι T : Type*) where
  chan : Monitor.State ι (Ends T) (Call T) (Ret T) Cond
  todo : ι → List (Call T)

/-- A `recv` that found nobody left. -/
def isEnd : Entry (Call T) (Ret T) → Bool
  | ⟨_, _, .recv (.error _)⟩ => true
  | _ => false

namespace Plan

/-- All calls of a sender. -/
def script (P : Plan ι T) (t : ι) : List (Call T) :=
  (P.values t).map (.send (P.handle t)) ++ [.dropSender (P.handle t)]

variable [DecidableEq ι]

/-- The next call of a thread that is outside. -/
def next (P : Plan ι T) (s : Pipeline ι T) (t : ι) : Option (Call T) :=
  if t = P.consumer then if s.chan.returned.any isEnd then none else some .recv
  else (s.todo t).head?

/-- The action of a thread, with the call it makes. -/
def act (P : Plan ι T) (s : Pipeline ι T) : Act ι Unit → Option (Act ι (Call T))
  | .call t _ => (P.next s t).map (.call t)
  | .enter t => some (.enter t)
  | .signal t u => some (.signal t u)
  | .signalNone t => some (.signalNone t)
  | .broadcast t => some (.broadcast t)
  | .spurious u => some (.spurious u)

/-- The calls that are still to be made after an action. -/
def advance (todo : ι → List (Call T)) : Act ι Unit → ι → List (Call T)
  | .call t _ => Function.update todo t (todo t).tail
  | _ => todo

variable [Fintype ι]

/-- One action of one thread. -/
def step (P : Plan ι T) (capacity : ℕ) (s : Pipeline ι T) (a : Act ι Unit) :
    Option (Pipeline ι T) :=
  (P.act s a).bind fun b => ((spec T capacity).step s.chan b).map fun chan =>
    ⟨chan, advance s.todo a⟩

/-- The threads, from where every sender has its handle. -/
def system (P : Plan ι T) (capacity : ℕ) (s₀ : Monitor.State ι (Ends T) (Call T) (Ret T) Cond) :
    Sts (Pipeline ι T) (Act ι Unit) where
  init := ⟨s₀, fun t => if t = P.consumer then [] else P.script t⟩
  step := P.step capacity

/-- Nobody can move, spurious wakes apart. -/
def Stuck (P : Plan ι T) (capacity : ℕ) (s : Pipeline ι T) : Prop :=
  ∀ a : Act ι Unit, (∀ u, a ≠ .spurious u) → P.step capacity s a = none

/-- The channel was made and its sender cloned and dropped, and nothing else was done; every handle
    is now a sender's own. -/
structure Start (P : Plan ι T) (capacity : ℕ)
    (s₀ : Monitor.State ι (Ends T) (Call T) (Ret T) Cond) : Prop where
  reach : ∃ as, ((spec T capacity).system ι).run as = some s₀
  outside : ∀ t, s₀.pc t = .idle
  receiver : s₀.data.state.receiver = true
  handles : s₀.data.handles = (Finset.univ.erase P.consumer).image P.handle
  own : ∀ t u, t ≠ P.consumer → u ≠ P.consumer → P.handle t = P.handle u → t = u
  silent : ∀ e ∈ s₀.passes, (∃ h h', e.call = .clone h ∧ e.ret = .clone h') ∨
    ∃ h, e.call = .dropSender h ∧ e.ret = .dropSender

end Plan

/-! ## What was sent through a handle -/

/-- The value that a section pushed through the handle `h`. -/
def pushedBy? (h : ℕ) : Entry (Call T) (Ret T) → Option T
  | ⟨_, .send h' v, .send (.ok ())⟩ => if h' = h then some v else none
  | _ => none

/-- The values sent through the handle `h`, in order. -/
def sentBy (h : ℕ) (ps : List (Entry (Call T) (Ret T))) : List T := ps.filterMap (pushedBy? h)

/-- A section of `recv`. -/
def isRecvEntry (e : Entry (Call T) (Ret T)) : Bool := isRecv e.call

variable {ps : List (Entry (Call T) (Ret T))} {x : Entry (Call T) (Ret T)}

theorem sentBy_snoc (h : ℕ) (ps : List (Entry (Call T) (Ret T))) (x : Entry (Call T) (Ret T)) :
    sentBy h (ps ++ [x]) = sentBy h ps ++ (pushedBy? h x).toList := by
  rw [sentBy, List.filterMap_append]
  cases hx : pushedBy? h x with
  | none => rw [List.filterMap_cons_none hx]; rfl
  | some v => rw [List.filterMap_cons_some hx]; rfl

theorem count_recv_le (h : ∀ e ∈ ps, e.call = .recv → ∃ r, e.ret = .recv r) :
    ps.countP isRecvEntry ≤ (delivered ps).length + ps.countP isEnd := by
  induction ps using List.reverseRecOn with
  | nil => simp
  | append_singleton ps x ih =>
    have hle := ih fun e he => h e (List.mem_append_left _ he)
    rw [delivered_snoc, List.countP_append, List.countP_append, List.length_append]
    obtain ⟨id, k, r⟩ := x
    cases k with
    | recv =>
      obtain ⟨r, rfl⟩ := h _ (List.mem_append_right _ (List.mem_singleton_self _)) rfl
      cases r with
      | ok v => simp [isRecvEntry, isRecv, popped?]; omega
      | error e => simp [isRecvEntry, isRecv, isEnd]; omega
    | _ => simp [isRecvEntry, isRecv]; omega

theorem accepted_add_count_recv_le (ps : List (Entry (Call T) (Ret T))) :
    (accepted ps).length + ps.countP isRecvEntry ≤ ps.length := by
  induction ps using List.reverseRecOn with
  | nil => simp [accepted]
  | append_singleton ps x ih =>
    rw [accepted_snoc, List.countP_append, List.length_append, List.length_append]
    obtain ⟨id, k, r⟩ := x
    cases k with
    | send h v =>
      have hp : (pushed? ⟨id, .send h v, r⟩).toList.length ≤ 1 := Option.length_toList_le
      simp [isRecvEntry, isRecv]
      omega
    | _ => simp [isRecvEntry, isRecv, pushed?]; omega

theorem eq_of_script {h : ℕ} {vs ws : List T} {rest : List (Call T)}
    (heq : vs.map (Call.send h) ++ [.dropSender h] =
      ws.map (Call.send h) ++ .dropSender h :: rest) : ws = vs ∧ rest = [] := by
  induction ws generalizing vs with
  | nil =>
    cases vs with
    | nil => simpa using heq.symm
    | cons v vs => simp at heq
  | cons w ws ih =>
    cases vs with
    | nil => simp at heq
    | cons v vs =>
      simp only [List.map_cons, List.cons_append, List.cons.injEq, Call.send.injEq, true_and] at heq
      obtain ⟨rfl, hrest⟩ := ih heq.2
      exact ⟨by rw [heq.1], hrest⟩

/-! ## How far the threads are -/

namespace Plan

variable [DecidableEq ι]

/-- The calls of a sender that are not completed. -/
def rest (P : Plan ι T) (s : Pipeline ι T) (t : ι) : List (Call T) :=
  if t = P.consumer then [] else (s.chan.pc t).pending.toList ++ s.todo t

/-- A call is one that the thread makes. -/
def Owns (P : Plan ι T) (t : ι) (k : Call T) : Prop :=
  if t = P.consumer then k = .recv else k ∈ P.script t

variable [Fintype ι]

/-- The sections of the senders, with those before. -/
def sections (P : Plan ι T) (s₀ : Monitor.State ι (Ends T) (Call T) (Ret T) Cond) : ℕ :=
  s₀.passes.length + ∑ t ∈ Finset.univ.erase P.consumer, (P.script t).length

/-- How far the threads are. -/
structure Inv (P : Plan ι T) (capacity : ℕ) (s₀ : Monitor.State ι (Ends T) (Call T) (Ret T) Cond)
    (s : Pipeline ι T) : Prop where
  reach : ∃ as, ((spec T capacity).system ι).run as = some s.chan
  receiver : s.chan.data.state.receiver = true
  own : ∀ t k, (s.chan.pc t).call? = some k → P.Owns t k
  /-- A sender has its handle until it has made all of its calls. -/
  sender : ∀ t, t ≠ P.consumer →
    (P.handle t ∈ s.chan.data.handles ∧ P.script t =
      (sentBy (P.handle t) s.chan.passes).map (.send (P.handle t)) ++ P.rest s t) ∨
    (P.handle t ∉ s.chan.data.handles ∧ P.rest s t = [] ∧
      sentBy (P.handle t) s.chan.passes = P.values t)
  alive : ∀ h ∈ s.chan.data.handles, ∃ t, t ≠ P.consumer ∧ h = P.handle t
  received : ∀ e ∈ s.chan.passes, e.call = .recv → ∃ r, e.ret = .recv r
  sent : ∀ e ∈ s.chan.passes, ∀ h v, e.call = .send h v → e.ret = .send (.ok ())
  /-- The consumer stops when it is told that nobody is left. -/
  ended : ∀ e ∈ s.chan.passes, isEnd e →
    e ∈ s.chan.returned ∧ (s.chan.pc P.consumer).pending = none
  once : s.chan.passes.countP isEnd ≤ 1
  counted : s.chan.passes.length +
      ∑ t ∈ Finset.univ.erase P.consumer, (P.rest s t).length =
    P.sections s₀ + s.chan.passes.countP isRecvEntry
  merged : (accepted s.chan.passes : Multiset T) =
    ∑ t ∈ Finset.univ.erase P.consumer, (sentBy (P.handle t) s.chan.passes : Multiset T)

variable {P : Plan ι T} {capacity : ℕ} {s₀ : Monitor.State ι (Ends T) (Call T) (Ret T) Cond}
  {s s' : Pipeline ι T} {a : Act ι Unit}

/-- **The threads begin** with all of their calls to make. -/
theorem Start.inv (h : P.Start capacity s₀) : P.Inv capacity s₀ (P.system capacity s₀).init := by
  have hnil : ∀ {β : Type _} (f : Entry (Call T) (Ret T) → Option β),
      (∀ id h h', f ⟨id, .clone h, .clone h'⟩ = none) →
      (∀ id h, f ⟨id, .dropSender h, .dropSender⟩ = none) → s₀.passes.filterMap f = [] := by
    intro β f hclone hdrop
    refine List.filterMap_eq_nil_iff.2 fun e he => ?_
    obtain ⟨id, k, r⟩ := e
    rcases h.silent _ he with ⟨h₁, h₂, rfl, rfl⟩ | ⟨h₁, rfl, rfl⟩
    · exact hclone id h₁ h₂
    · exact hdrop id h₁
  have hsent : ∀ h', sentBy h' s₀.passes = [] := fun h' => hnil _ (fun _ _ _ => rfl) fun _ _ => rfl
  have haccepted : accepted s₀.passes = [] := hnil _ (fun _ _ _ => rfl) fun _ _ => rfl
  have hcount : ∀ p : Entry (Call T) (Ret T) → Bool,
      (∀ id h h', p ⟨id, .clone h, .clone h'⟩ = false) →
      (∀ id h, p ⟨id, .dropSender h, .dropSender⟩ = false) → s₀.passes.countP p = 0 := by
    intro p hclone hdrop
    refine List.countP_eq_zero.2 fun e he => ?_
    obtain ⟨id, k, r⟩ := e
    rcases h.silent _ he with ⟨h₁, h₂, rfl, rfl⟩ | ⟨h₁, rfl, rfl⟩
    · simp [hclone]
    · simp [hdrop]
  have hends : s₀.passes.countP isEnd = 0 := hcount _ (fun _ _ _ => rfl) fun _ _ => rfl
  have hrest : ∀ t, t ≠ P.consumer → P.rest (P.system capacity s₀).init t = P.script t := by
    intro t ht
    simp [rest, system, ht, h.outside t, Pc.pending]
  refine ⟨h.reach, h.receiver, fun t k hk => ?_, fun t ht => .inl ⟨?_, ?_⟩, fun h' hh => ?_,
    fun e he hc => ?_, fun e he h' v hc => ?_, fun e he hend => ?_, hends.le.trans (Nat.zero_le 1),
    ?_, ?_⟩
  · simp [system, h.outside t, Pc.call?] at hk
  · show P.handle t ∈ s₀.data.handles
    rw [h.handles]
    exact Finset.mem_image_of_mem _ (by simp [ht])
  · rw [hrest t ht]
    exact (congrArg (fun l => l.map (Call.send (P.handle t)) ++ P.script t) (hsent _)).symm
  · rw [show (P.system capacity s₀).init.chan = s₀ from rfl, h.handles] at hh
    obtain ⟨t, ht, rfl⟩ := Finset.mem_image.1 hh
    exact ⟨t, Finset.ne_of_mem_erase ht, rfl⟩
  · rcases h.silent e he with ⟨h₁, h₂, hk, -⟩ | ⟨h₁, hk, -⟩ <;> cases hk.symm.trans hc
  · rcases h.silent e he with ⟨h₁, h₂, hk, -⟩ | ⟨h₁, hk, -⟩ <;> cases hk.symm.trans hc
  · exact absurd hend (by simpa using List.countP_eq_zero.1 hends e he)
  · show s₀.passes.length + _ = _ + s₀.passes.countP isRecvEntry
    rw [hcount isRecvEntry (fun _ _ _ => rfl) fun _ _ => rfl, sections, Nat.add_zero]
    exact congrArg _ (Finset.sum_congr rfl fun t ht => by rw [hrest t (Finset.ne_of_mem_erase ht)])
  · show (accepted s₀.passes : Multiset T) = ∑ t ∈ _, (sentBy (P.handle t) s₀.passes : Multiset T)
    rw [haccepted]
    simp [hsent]

/-! ## What a step does -/

theorem step_reach (h : P.step capacity s a = some s') :
    ∃ b, (spec T capacity).step s.chan b = some s'.chan ∧ b.gain = a.gain := by
  obtain ⟨b, hb, h⟩ := Option.bind_eq_some_iff.1 h
  obtain ⟨chan, hstep, rfl⟩ := Option.map_eq_some_iff.1 h
  refine ⟨b, hstep, ?_⟩
  cases a with
  | call t u =>
    obtain ⟨k, -, rfl⟩ := Option.map_eq_some_iff.1 hb
    rfl
  | _ =>
    cases hb
    rfl

/-- **A thread makes its next call**, or the calls that are still to be made stay as they are. -/
theorem step_cases (h : P.step capacity s a = some s') :
    (∃ t k, P.next s t = some k ∧ s.chan.pc t = .idle ∧
      s' = ⟨{ s.chan with
        pc := Function.update s.chan.pc t (.ready s.chan.next k), next := s.chan.next + 1 },
        Function.update s.todo t (s.todo t).tail⟩) ∨
    (s'.todo = s.todo ∧ (spec T capacity).Move s.chan s'.chan) := by
  obtain ⟨b, hb, h⟩ := Option.bind_eq_some_iff.1 h
  obtain ⟨chan, hstep, rfl⟩ := Option.map_eq_some_iff.1 h
  cases a with
  | call t u =>
    obtain ⟨k, hk, rfl⟩ := Option.map_eq_some_iff.1 hb
    obtain ⟨ht, rfl⟩ := Spec.step_call hstep
    exact .inl ⟨t, k, hk, ht, rfl⟩
  | _ =>
    cases hb
    exact .inr ⟨rfl, Spec.step_move hstep nofun⟩

omit [Fintype ι] in
theorem rest_consumer (s : Pipeline ι T) : P.rest s P.consumer = [] := if_pos rfl

omit [Fintype ι] in
theorem rest_of_ne (s : Pipeline ι T) {t : ι} (ht : t ≠ P.consumer) :
    P.rest s t = (s.chan.pc t).pending.toList ++ s.todo t := if_neg ht

theorem Inv.owns_of_mem (hI : P.Inv capacity s₀ s) {t : ι} (ht : t ≠ P.consumer) {k : Call T}
    (hk : k ∈ P.rest s t) : P.Owns t k := by
  rw [Owns, if_neg ht]
  rcases hI.sender t ht with ⟨-, heq⟩ | ⟨-, hnil, -⟩
  · rw [heq]
    exact List.mem_append_right _ hk
  · simp [hnil] at hk

theorem Inv.quiet (hI : P.Inv capacity s₀ s) (hreach : ∃ as, ((spec T capacity).system ι).run as =
      some s'.chan) (hdata : s'.chan.data = s.chan.data) (hpasses : s'.chan.passes = s.chan.passes)
    (hreturned : s.chan.returned ⊆ s'.chan.returned)
    (hown : ∀ t k, (s'.chan.pc t).call? = some k → P.Owns t k)
    (hrest : ∀ t, P.rest s' t = P.rest s t)
    (hended : ∀ e ∈ s.chan.passes, isEnd e → (s'.chan.pc P.consumer).pending = none) :
    P.Inv capacity s₀ s' := by
  refine ⟨hreach, by rw [hdata]; exact hI.receiver, hown, fun t ht => ?_, ?_, ?_, ?_,
    fun e he hend => ?_, ?_, ?_, ?_⟩
  · rw [hdata, hpasses, hrest]
    exact hI.sender t ht
  · rw [hdata]
    exact hI.alive
  · rw [hpasses]
    exact hI.received
  · rw [hpasses]
    exact hI.sent
  · rw [hpasses] at he
    exact ⟨hreturned (hI.ended e he hend).1, hended e he hend⟩
  · rw [hpasses]
    exact hI.once
  · simp only [hpasses, hrest]
    exact hI.counted
  · rw [hpasses]
    exact hI.merged

theorem Inv.call (hI : P.Inv capacity s₀ s) {t : ι} {k : Call T} (hk : P.next s t = some k)
    (ht : s.chan.pc t = .idle) {chan : Monitor.State ι (Ends T) (Call T) (Ret T) Cond}
    (hreach : ∃ as, ((spec T capacity).system ι).run as = some chan)
    (hchan : chan = { s.chan with
      pc := Function.update s.chan.pc t (.ready s.chan.next k), next := s.chan.next + 1 }) :
    P.Inv capacity s₀ ⟨chan, Function.update s.todo t (s.todo t).tail⟩ := by
  subst hchan
  have hhead : t ≠ P.consumer → s.todo t = k :: (s.todo t).tail := by
    intro hne
    rw [next, if_neg hne] at hk
    exact (List.cons_head?_tail hk).symm
  refine hI.quiet hreach rfl rfl (List.Subset.refl _) (fun u k' hk' => ?_) (fun u => ?_)
    fun e he hend => ?_
  · by_cases hut : u = t
    · subst hut
      obtain rfl : k = k' := by simpa [Pc.call?] using hk'
      by_cases hu : u = P.consumer
      · rw [next, if_pos hu] at hk
        split_ifs at hk
        cases hk
        simp [Owns, hu]
      · refine hI.owns_of_mem hu ?_
        rw [rest_of_ne s hu, hhead hu]
        simp
    · exact hI.own u k' (by simpa [hut] using hk')
  · by_cases hu : u = P.consumer
    · rw [hu, rest_consumer, rest_consumer]
    · rw [rest_of_ne _ hu, rest_of_ne _ hu]
      by_cases hut : u = t
      · subst hut
        simpa [ht, Pc.pending] using (hhead hu).symm
      · simp [hut]
  · by_cases hct : P.consumer = t
    · -- The consumer has been told, and makes no call.
      rw [next, if_pos hct.symm, if_pos] at hk
      · cases hk
      · exact List.any_eq_true.2 ⟨e, (hI.ended e he hend).1, hend⟩
    · simpa [hct] using (hI.ended e he hend).2

theorem Inv.consumed (hI : P.Inv capacity s₀ s) {id : ℕ} {r : Except RecvError T}
    (hreach : ∃ as, ((spec T capacity).system ι).run as = some s'.chan)
    (htodo : s'.todo = s.todo) (ht : s.chan.pc P.consumer = .ready id .recv)
    (hreceiver : s'.chan.data.state.receiver = s.chan.data.state.receiver)
    (hhandles : s'.chan.data.handles = s.chan.data.handles)
    (hpending : ∀ u, (s'.chan.pc u).pending =
      if u = P.consumer then none else (s.chan.pc u).pending)
    (hcall : ∀ u k', (s'.chan.pc u).call? = some k' → (s.chan.pc u).call? = some k')
    (hpasses : s'.chan.passes = s.chan.passes ++ [⟨id, .recv, .recv r⟩])
    (hend : isEnd (⟨id, .recv, .recv r⟩ : Entry (Call T) (Ret T)) →
      ⟨id, .recv, .recv r⟩ ∈ s'.chan.returned) : P.Inv capacity s₀ s' := by
  have hnone : ∀ e ∈ s.chan.passes, ¬ isEnd e = true := by
    intro e he hend
    have hp := (hI.ended e he hend).2
    rw [ht] at hp
    cases hp
  have hrest : ∀ u, P.rest s' u = P.rest s u := by
    intro u
    by_cases hu : u = P.consumer
    · rw [hu, rest_consumer, rest_consumer]
    · rw [rest_of_ne _ hu, rest_of_ne _ hu, hpending, if_neg hu, htodo]
  have hsent : ∀ h, sentBy h s'.chan.passes = sentBy h s.chan.passes := by
    intro h
    rw [hpasses, sentBy_snoc]
    exact List.append_nil _
  have haccepted : accepted s'.chan.passes = accepted s.chan.passes := by
    rw [hpasses, accepted_snoc]
    exact List.append_nil _
  refine ⟨hreach, hreceiver.trans hI.receiver, fun u k' hk => hI.own u k' (hcall u k' hk),
    fun u hu => ?_, ?_, fun e he hc => ?_, fun e he h v hc => ?_, fun e he hee => ?_, ?_, ?_, ?_⟩
  · rw [hhandles, hsent, hrest]
    exact hI.sender u hu
  · rw [hhandles]
    exact hI.alive
  · rw [hpasses] at he
    rcases List.mem_append.1 he with he | he
    · exact hI.received e he hc
    · exact ⟨r, by rw [List.mem_singleton.1 he]⟩
  · rw [hpasses] at he
    rcases List.mem_append.1 he with he | he
    · exact hI.sent e he h v hc
    · rw [List.mem_singleton.1 he] at hc
      cases hc
  · rw [hpasses] at he
    rcases List.mem_append.1 he with he | he
    · exact absurd hee (hnone e he)
    · rw [List.mem_singleton.1 he] at hee ⊢
      exact ⟨hend hee, by rw [hpending, if_pos rfl]⟩
  · rw [hpasses, List.countP_append, List.countP_eq_zero.2 hnone, Nat.zero_add]
    exact List.countP_le_length
  · have hcounted := hI.counted
    simp only [hpasses, hrest, List.length_append, List.length_singleton, List.countP_append]
    simp only [List.countP_singleton, isRecvEntry, isRecv, if_true] at hcounted ⊢
    omega
  · rw [haccepted, hI.merged]
    exact Finset.sum_congr rfl fun u _ => by rw [hsent]

theorem Inv.produced (hI : P.Inv capacity s₀ s) (hstart : P.Start capacity s₀) {t : ι} {id : ℕ}
    {k : Call T} {r : Ret T} {v : Option T}
    (hreach : ∃ as, ((spec T capacity).system ι).run as = some s'.chan)
    (htodo : s'.todo = s.todo) (hne : t ≠ P.consumer) (ht : s.chan.pc t = .ready id k)
    (hreceiver : s'.chan.data.state.receiver = s.chan.data.state.receiver)
    (hhandles : ∀ u, u ≠ P.consumer → u ≠ t →
      (P.handle u ∈ s'.chan.data.handles ↔ P.handle u ∈ s.chan.data.handles))
    (halive : s'.chan.data.handles ⊆ s.chan.data.handles)
    (hpending : ∀ u, (s'.chan.pc u).pending = if u = t then none else (s.chan.pc u).pending)
    (hcall : ∀ u k', (s'.chan.pc u).call? = some k' → (s.chan.pc u).call? = some k')
    (hpasses : s'.chan.passes = s.chan.passes ++ [⟨id, k, r⟩])
    (hreturned : s.chan.returned ⊆ s'.chan.returned)
    (hk : isRecv k = false) (hr : isEnd (⟨id, k, r⟩ : Entry (Call T) (Ret T)) = false)
    (hok : ∀ h v, k = .send h v → r = .send (.ok ()))
    (hpushed : pushed? ⟨id, k, r⟩ = v)
    (hpushedBy : ∀ h, pushedBy? h ⟨id, k, r⟩ = if h = P.handle t then v else none)
    (hsender : P.handle t ∈ s.chan.data.handles →
      P.script t = (sentBy (P.handle t) s.chan.passes).map (.send (P.handle t)) ++ k :: s.todo t →
      (P.handle t ∈ s'.chan.data.handles ∧ P.script t =
        (sentBy (P.handle t) s.chan.passes ++ v.toList).map (.send (P.handle t)) ++ s.todo t) ∨
      (P.handle t ∉ s'.chan.data.handles ∧ s.todo t = [] ∧
        sentBy (P.handle t) s.chan.passes ++ v.toList = P.values t)) : P.Inv capacity s₀ s' := by
  have hrest : ∀ u, u ≠ t → P.rest s' u = P.rest s u := by
    intro u hut
    by_cases hu : u = P.consumer
    · rw [hu, rest_consumer, rest_consumer]
    · rw [rest_of_ne _ hu, rest_of_ne _ hu, hpending, if_neg hut, htodo]
  have hrest_t : P.rest s t = k :: s.todo t := by
    rw [rest_of_ne _ hne, ht]
    rfl
  have hrest_t' : P.rest s' t = s.todo t := by
    rw [rest_of_ne _ hne, hpending, if_pos rfl, htodo]
    rfl
  have hsent : ∀ u, u ≠ P.consumer → sentBy (P.handle u) s'.chan.passes =
      sentBy (P.handle u) s.chan.passes ++ if u = t then v.toList else [] := by
    intro u hu
    rw [hpasses, sentBy_snoc, hpushedBy]
    by_cases hut : u = t
    · rw [if_pos hut, if_pos (by rw [hut])]
    · rw [if_neg hut, if_neg fun h => hut (hstart.own u t hu hne h)]
      rfl
  have hmem : t ∈ Finset.univ.erase P.consumer := by simp [hne]
  refine ⟨hreach, hreceiver.trans hI.receiver, fun u k' hk' => hI.own u k' (hcall u k' hk'),
    fun u hu => ?_, fun h hh => hI.alive h (halive hh), fun e he hc => ?_, fun e he h w hc => ?_,
    fun e he hee => ?_, ?_, ?_, ?_⟩
  · by_cases hut : u = t
    · subst hut
      rw [hsent u hu, if_pos rfl, hrest_t']
      refine (hI.sender u hu).elim (fun h => hsender h.1 (by rw [← hrest_t]; exact h.2)) fun h => ?_
      rw [hrest_t] at h
      cases h.2.1
    · rw [hsent u hu, if_neg hut, List.append_nil, hrest u hut, hhandles u hu hut]
      exact hI.sender u hu
  · rw [hpasses] at he
    rcases List.mem_append.1 he with he | he
    · exact hI.received e he hc
    · rw [List.mem_singleton.1 he] at hc
      cases hc
      cases hk
  · rw [hpasses] at he
    rcases List.mem_append.1 he with he | he
    · exact hI.sent e he h w hc
    · rw [List.mem_singleton.1 he] at hc ⊢
      exact hok h w hc
  · rw [hpasses] at he
    rcases List.mem_append.1 he with he | he
    · obtain ⟨hret, hp⟩ := hI.ended e he hee
      exact ⟨hreturned hret, by rw [hpending, if_neg hne.symm, hp]⟩
    · rw [List.mem_singleton.1 he, hr] at hee
      cases hee
  · rw [hpasses, List.countP_append, List.countP_singleton, hr]
    exact hI.once
  · have hcounted := hI.counted
    have hothers : ∑ u ∈ (Finset.univ.erase P.consumer).erase t, (P.rest s' u).length =
        ∑ u ∈ (Finset.univ.erase P.consumer).erase t, (P.rest s u).length :=
      Finset.sum_congr rfl fun u hu => by rw [hrest u (Finset.ne_of_mem_erase hu)]
    rw [← Finset.add_sum_erase _ _ hmem, hrest_t, List.length_cons] at hcounted
    rw [← Finset.add_sum_erase _ _ hmem, hrest_t', hothers, hpasses, List.length_append,
      List.countP_append, List.countP_singleton, isRecvEntry, hk]
    simp only [List.length_singleton, Bool.false_eq_true, if_false]
    omega
  · have hsum : ∑ u ∈ Finset.univ.erase P.consumer,
          (sentBy (P.handle u) s'.chan.passes : Multiset T) =
        ∑ u ∈ Finset.univ.erase P.consumer,
          ((sentBy (P.handle u) s.chan.passes : Multiset T) +
            if u = t then (v.toList : Multiset T) else 0) := by
      refine Finset.sum_congr rfl fun u hu => ?_
      rw [hsent u (Finset.ne_of_mem_erase hu)]
      split_ifs <;> simp
    rw [hsum, Finset.sum_add_distrib, ← hI.merged, Finset.sum_ite_eq', if_pos hmem, hpasses,
      accepted_snoc, hpushed]
    rfl

/-- **A section that completes** keeps the account. -/
theorem Inv.done (hI : P.Inv capacity s₀ s) (hstart : P.Start capacity s₀) {t : ι} {id : ℕ}
    {k : Call T} {r : Ret T} {n : Option (Notify Cond)}
    (hreach : ∃ as, ((spec T capacity).system ι).run as = some s'.chan)
    (htodo : s'.todo = s.todo) (ht : s.chan.pc t = .ready id k)
    (hp : pass capacity s.chan.data k = .done s'.chan.data r n)
    (hpending : ∀ u, (s'.chan.pc u).pending = if u = t then none else (s.chan.pc u).pending)
    (hcall : ∀ u k', (s'.chan.pc u).call? = some k' → (s.chan.pc u).call? = some k')
    (hpasses : s'.chan.passes = s.chan.passes ++ [⟨id, k, r⟩])
    (hreturned : s.chan.returned ⊆ s'.chan.returned)
    (hnone : n = none → ⟨id, k, r⟩ ∈ s'.chan.returned) : P.Inv capacity s₀ s' := by
  have hown := hI.own t k (by rw [ht]; rfl)
  rw [Owns] at hown
  generalize hd : s'.chan.data = d at hp
  split_ifs at hown with hc
  · subst hown hc
    cases pass_done hp with
    | recv v q hq =>
      exact hI.consumed hreach htodo ht (by rw [hd]) (by rw [hd]) hpending hcall hpasses nofun
    | finished hq hs =>
      exact hI.consumed hreach htodo ht (by rw [hd]) (by rw [hd]) hpending hcall hpasses
        fun _ => hnone rfl
  · rw [script, List.mem_append, List.mem_map, List.mem_singleton] at hown
    rcases hown with ⟨v, -, rfl⟩ | rfl
    · cases pass_done hp with
      | gone _ _ hr => cases hr.symm.trans hI.receiver
      | push _ _ hr hlt =>
        refine hI.produced hstart (v := some v) hreach htodo hc ht (by rw [hd])
          (fun u _ _ => by rw [hd]) (by rw [hd]) hpending hcall hpasses hreturned rfl rfl
          (fun _ _ _ => rfl) rfl (fun h => ?_) fun hh heq => .inl ⟨by rw [hd]; exact hh, ?_⟩
        · rw [pushedBy?]
          exact if_congr eq_comm rfl rfl
        · rw [heq]
          simp
    · cases pass_done hp with
      | dropSender _ =>
        refine hI.produced hstart (v := none) hreach htodo hc ht (by rw [hd])
          (fun u hu hut => ?_) (by rw [hd]; exact Finset.erase_subset _ _) hpending hcall hpasses
          hreturned rfl rfl nofun rfl (fun h => (ite_self none).symm) fun hh heq => .inr ⟨?_, ?_⟩
        · rw [hd]
          exact ⟨Finset.mem_of_mem_erase,
            fun hh => Finset.mem_erase.2 ⟨fun h => hut (hstart.own u t hu hc h), hh⟩⟩
        · rw [hd]
          exact Finset.notMem_erase _ _
        · obtain ⟨hvs, hrest⟩ := eq_of_script heq
          exact ⟨hrest, by rw [hvs]; exact List.append_nil _⟩

/-- **The account is kept** along every run. -/
theorem inductive_inv (hstart : P.Start capacity s₀) :
    (P.system capacity s₀).Inductive (P.Inv capacity s₀) where
  init := hstart.inv
  step {s a s'} hI ha := by
    have hreach : ∃ as, ((spec T capacity).system ι).run as = some s'.chan := by
      obtain ⟨as, has⟩ := hI.reach
      obtain ⟨b, hb, -⟩ := step_reach ha
      exact ⟨as ++ [b], Sts.run_snoc_eq_some.2 ⟨_, has, hb⟩⟩
    rcases step_cases ha with ⟨t, k, hk, ht, rfl⟩ | ⟨htodo, hmove⟩
    · exact hI.call hk ht hreach rfl
    · cases hmove with
      | done t id k r n ht hp hpending hcall hpasses hreturned hnone =>
        exact hI.done hstart hreach htodo ht hp hpending hcall hpasses hreturned hnone
      | quiet hpending hcall hdata hpasses hreturned =>
        refine hI.quiet hreach hdata hpasses hreturned
          (fun t k hk => hI.own t k (hcall t k hk)) (fun t => ?_)
          fun e he hend => (hpending _).trans (hI.ended e he hend).2
        rw [rest, rest, hpending, htodo]

/-! ## How many steps there are -/

/-- **The sections are counted**: those of the senders, a `recv` for each value, and the last
    one. -/
theorem Inv.passes_le (hI : P.Inv capacity s₀ s) :
    s.chan.passes.length ≤ 2 * P.sections s₀ + 1 := by
  obtain ⟨as, has⟩ := hI.reach
  obtain ⟨ops, f, -, hsent, hout, -⟩ := (simulates capacity).run has
  have hfifo : (delivered s.chan.passes).length ≤ (accepted s.chan.passes).length := by
    rw [← hsent, ← hout, ← f.out_append_queue, List.length_append]
    exact Nat.le_add_right _ _
  have hrecv := count_recv_le hI.received
  have hadd := accepted_add_count_recv_le s.chan.passes
  have hcounted := hI.counted
  have honce := hI.once
  omega

theorem runFrom_chan {as : List (Act ι Unit)} (h : (P.system capacity s₀).runFrom s as = some s') :
    ∃ bs, ((spec T capacity).system ι).runFrom s.chan bs = some s'.chan ∧
      bs.map Act.gain = as.map Act.gain := by
  induction as generalizing s with
  | nil =>
    cases h
    exact ⟨[], rfl, rfl⟩
  | cons a as ih =>
    obtain ⟨s₁, h₁, h⟩ := Option.bind_eq_some_iff.1 h
    obtain ⟨b, hb, hgain⟩ := step_reach h₁
    obtain ⟨bs, hbs, hgains⟩ := ih h
    exact ⟨b :: bs, Option.bind_eq_some_iff.2 ⟨_, hb, hbs⟩, by
      rw [List.map_cons, List.map_cons, hgain, hgains]⟩

/-! ## Where nobody can move -/

/-- All values have come through. -/
structure Drained (P : Plan ι T) (s : Pipeline ι T) : Prop where
  outside : ∀ t, s.chan.pc t = .idle
  /-- Every sender has sent all of its values, in order, and every `send` has succeeded. -/
  sent : ∀ t, t ≠ P.consumer → s.todo t = [] ∧ sentBy (P.handle t) s.chan.passes = P.values t
  succeeded : ∀ e ∈ s.chan.passes, ∀ h v, e.call = .send h v → e.ret = .send (.ok ())
  /-- The consumer has received them, each once, and was told that nobody is left. -/
  received : delivered s.chan.passes = accepted s.chan.passes
  merged : (accepted s.chan.passes : Multiset T) =
    ∑ t ∈ Finset.univ.erase P.consumer, (P.values t : Multiset T)
  told : s.chan.returned.any isEnd

theorem Start.compat (hstart : P.Start capacity s₀) {t u : ι} (hut : u ≠ t) {k k' : Call T}
    (hk : P.Owns t k) (hk' : P.Owns u k') : Channel.compat k' k := by
  have hown : ∀ v j, P.Owns v j → (v = P.consumer ∧ j = .recv) ∨ (v ≠ P.consumer ∧
      ((∃ w, j = .send (P.handle v) w) ∨ j = .dropSender (P.handle v))) := by
    intro v j hj
    rw [Owns] at hj
    split_ifs at hj with hv
    · exact .inl ⟨hv, hj⟩
    · rw [script, List.mem_append, List.mem_map, List.mem_singleton] at hj
      exact .inr ⟨hv, hj.imp_left fun ⟨w, _, hw⟩ => ⟨w, hw.symm⟩⟩
  rcases hown t k hk with ⟨ht, rfl⟩ | ⟨ht, ⟨w, rfl⟩ | rfl⟩ <;>
    rcases hown u k' hk' with ⟨hu, rfl⟩ | ⟨hu, ⟨w', rfl⟩ | rfl⟩ <;>
    simp [Channel.compat]
  all_goals exact fun h => hut (hstart.own u t hu ht h)

theorem Inv.next_eq_none (hI : P.Inv capacity s₀ s) (hstart : P.Start capacity s₀)
    (hs : P.Stuck capacity s) {t : ι} (ht : s.chan.pc t = .idle) : P.next s t = none := by
  by_contra hne
  obtain ⟨k, hk⟩ := Option.ne_none_iff_exists'.1 hne
  have hown : P.Owns t k ∧ allowed s.chan.data k := by
    rw [next] at hk
    split_ifs at hk with hc
    · cases hk
      exact ⟨by simp [Owns, hc], hI.receiver⟩
    · have hmem : k ∈ P.rest s t := by
        rw [rest_of_ne s hc]
        exact List.mem_append_right _ (List.mem_of_mem_head? hk)
      have howns := hI.owns_of_mem hc hmem
      refine ⟨howns, ?_⟩
      have hhandle : P.handle t ∈ s.chan.data.handles := by
        rcases hI.sender t hc with ⟨hh, -⟩ | ⟨-, hnil, -⟩
        · exact hh
        · simp [hnil] at hmem
      rw [Owns, if_neg hc, script, List.mem_append, List.mem_map, List.mem_singleton] at howns
      rcases howns with ⟨v, -, rfl⟩ | rfl <;> simpa [allowed] using hhandle
  have hcompat : ∀ u, (s.chan.pc u).call?.all fun k' => Channel.compat k' k := by
    intro u
    cases hu : (s.chan.pc u).call? with
    | none => rfl
    | some k' =>
      have hut : u ≠ t := by
        rintro rfl
        rw [ht] at hu
        cases hu
      exact hstart.compat hut hown.1 (hI.own u k' hu)
  have hstep := hs (.call t ()) (fun u => by simp)
  simp [Plan.step, act, hk, Spec.step, ht, spec, hown.2, hcompat] at hstep

theorem Stuck.chan (hs : P.Stuck capacity s) : (spec T capacity).Stuck s.chan := by
  intro b hb
  have hmap : ∀ a : Act ι Unit, (∀ u, a ≠ .spurious u) → P.act s a = some b →
      (spec T capacity).step s.chan b = none := by
    intro a ha hab
    have hstep := hs a ha
    rw [Plan.step, hab] at hstep
    exact Option.map_eq_none_iff.1 hstep
  cases b with
  | enter t => exact hmap (.enter t) nofun rfl
  | signal t u => exact hmap (.signal t u) nofun rfl
  | signalNone t => exact hmap (.signalNone t) nofun rfl
  | broadcast t => exact hmap (.broadcast t) nofun rfl
  | call | spurious => cases hb

theorem Inv.of_told (hI : P.Inv capacity s₀ s) (htold : s.chan.returned.any isEnd) :
    s.chan.data.handles = ∅ ∧ s.chan.data.state.queue = [] := by
  obtain ⟨as, has⟩ := hI.reach
  obtain ⟨e, he, hend⟩ := List.any_eq_true.1 htold
  have hpass := ((Numbered.inductive (spec T capacity)).run has).returned he
  refine ((lawful capacity).inductive.run has).data.ended e hpass ?_
  obtain ⟨id, k, r⟩ := e
  cases r with
  | recv r =>
    cases r with
    | ok v => cases hend
    | error e => rfl
  | _ => cases hend

/-- **Where nobody can move, all is done.** -/
theorem Inv.drained (hI : P.Inv capacity s₀ s) (hcap : 0 < capacity) (hstart : P.Start capacity s₀)
    (hs : P.Stuck capacity s) : P.Drained s := by
  obtain ⟨as, has⟩ := hI.reach
  have hchan := hs.chan
  have hconsumer : s.chan.pc P.consumer = .idle → s.chan.returned.any isEnd := by
    intro hidle
    have hnext := hI.next_eq_none hstart hs hidle
    rw [next, if_pos rfl] at hnext
    split_ifs at hnext with htold
    exact htold
  have hrecv : ∀ id k c, s.chan.pc P.consumer = .blocked id k c →
      s.chan.data.state.queue = [] ∧ s.chan.data.state.senders ≠ 0 := by
    intro id k c hpc
    have hown := hI.own P.consumer k (by rw [hpc]; rfl)
    rw [Owns, if_pos rfl] at hown
    subst hown
    obtain ⟨rfl, -⟩ := (blocked_on capacity has hpc).resolve_right fun ⟨_, _, _, hk⟩ => by cases hk
    obtain ⟨h₀, hg⟩ := (wakes_onSend capacity).stuck (lawful capacity) has hchan hpc
    exact ⟨List.length_eq_zero_iff.1 h₀, hg⟩
  -- A sender that waits has a full queue before it, and the consumer would take from that.
  have hidle : ∀ t, t ≠ P.consumer → s.chan.pc t = .idle := by
    intro t ht
    rcases hchan.idle_or_blocked t with hpc | ⟨id, k, c, hpc⟩
    · exact hpc
    · exfalso
      have hown := hI.own t k (by rw [hpc]; rfl)
      rw [Owns, if_neg ht] at hown
      obtain ⟨rfl, -⟩ := (blocked_on capacity has hpc).resolve_left fun hk => by
        rw [hk.2] at hown
        simp [script] at hown
      have hfull := ((wakes_onRecv capacity).stuck (lawful capacity) has hchan hpc).1
      rcases hchan.idle_or_blocked P.consumer with hc | ⟨id', k', c', hc⟩
      · rw [(hI.of_told (hconsumer hc)).2, List.length_nil] at hfull
        omega
      · rw [(hrecv id' k' c' hc).1, List.length_nil] at hfull
        omega
  have hsent : ∀ t, t ≠ P.consumer → s.todo t = [] ∧ P.handle t ∉ s.chan.data.handles ∧
      sentBy (P.handle t) s.chan.passes = P.values t := by
    intro t ht
    have hnext := hI.next_eq_none hstart hs (hidle t ht)
    rw [next, if_neg ht, List.head?_eq_none_iff] at hnext
    have hrest : P.rest s t = [] := by
      rw [rest_of_ne s ht, hidle t ht, hnext]
      rfl
    rcases hI.sender t ht with ⟨-, heq⟩ | ⟨hh, -, hvalues⟩
    · rw [hrest, List.append_nil] at heq
      have hmem : Call.dropSender (P.handle t) ∈ P.script t := by simp [script]
      simp [heq] at hmem
    · exact ⟨hnext, hh, hvalues⟩
  have hempty : s.chan.data.handles = ∅ := by
    refine Finset.eq_empty_of_forall_notMem fun h hh => ?_
    obtain ⟨t, ht, rfl⟩ := hI.alive h hh
    exact (hsent t ht).2.1 hh
  have hcidle : s.chan.pc P.consumer = .idle := by
    rcases hchan.idle_or_blocked P.consumer with hc | ⟨id, k, c, hc⟩
    · exact hc
    · refine absurd ?_ (hrecv id k c hc).2
      rw [((lawful capacity).inductive.run has).data.counted, hempty, Finset.card_empty]
  have htold := hconsumer hcidle
  refine ⟨fun t => ?_, fun t ht => ⟨(hsent t ht).1, (hsent t ht).2.2⟩, hI.sent, ?_, ?_, htold⟩
  · by_cases ht : t = P.consumer
    · rw [ht, hcidle]
    · exact hidle t ht
  · obtain ⟨ops, f, -, hsentf, hout, hqueue⟩ := (simulates capacity).run has
    rw [← hsentf, ← hout, ← f.out_append_queue, hqueue, (hI.of_told htold).2, List.append_nil]
  · rw [hI.merged]
    exact Finset.sum_congr rfl fun t ht => by rw [(hsent t (Finset.ne_of_mem_erase ht)).2.2]

/-- The steps that a run may have, spurious wakes apart. -/
def bound (P : Plan ι T) (s₀ : Monitor.State ι (Ends T) (Call T) (Ret T) Cond) : ℕ :=
  2 * Fintype.card ι + (Fintype.card ι + 3) * (2 * P.sections s₀ + 1)

/-- **A pipeline drains**: its runs are bounded, and where nobody can move all values have come
    through. -/
theorem pipeline_drains (hcap : 0 < capacity) (hstart : P.Start capacity s₀)
    {as : List (Act ι Unit)} (hr : (P.system capacity s₀).run as = some s) :
    as.length ≤ P.bound s₀ + (as.map Act.gain).sum ∧
    delivered s.chan.passes <+: accepted s.chan.passes ∧
    (P.Stuck capacity s → P.Drained s) := by
  have hI := (inductive_inv hstart).run hr
  obtain ⟨bs, hbs, hgain⟩ := runFrom_chan hr
  obtain ⟨cs, hcs⟩ := hI.reach
  obtain ⟨ops, f, -, hsent, hout, -⟩ := (simulates capacity).run hcs
  refine ⟨?_, ⟨f.queue, ?_⟩, hI.drained hcap hstart⟩
  · have hlen := Spec.length_le hbs
    have hpasses := Nat.mul_le_mul_left (Fintype.card ι + 3) hI.passes_le
    have hweight : s₀.weight = 2 * Fintype.card ι := by
      simp [State.weight, hstart.outside, mul_comm]
    have hlength : bs.length = as.length := by simpa using congrArg List.length hgain
    rw [show (P.system capacity s₀).init.chan = s₀ from rfl, hweight, hlength, hgain] at hlen
    rw [bound]
    omega
  · rw [← hsent, ← hout, f.out_append_queue]

/-- Thread `1` sends `7` and `8` to thread `0`. -/
def pair : Plan (Fin 2) ℕ := ⟨0, fun _ => 0, fun _ => [7, 8]⟩

theorem pair_start : pair.Start 1 ((spec ℕ 1).system (Fin 2)).init where
  reach := ⟨[], rfl⟩
  outside _ := rfl
  receiver := rfl
  handles := rfl
  own t u ht hu _ := by
    simp only [pair] at ht hu
    omega
  silent := nofun

/-- With room for one value: the second `send` waits, and in the end both values have come
    through. -/
theorem pipeline_drains_pair :
    let s := ((pair.system 1 ((spec ℕ 1).system (Fin 2)).init).run
      [.call 1 (), .enter 1, .signalNone 1, .call 1 (), .enter 1, .call 0 (), .enter 0, .signal 0 1,
        .enter 1, .signalNone 1, .call 1 (), .enter 1, .broadcast 1, .call 0 (), .enter 0,
        .signalNone 0, .call 0 (), .enter 0]).get (by decide)
    delivered s.chan.passes = [7, 8] ∧ delivered s.chan.passes <+: accepted s.chan.passes ∧
      (pair.Stuck 1 s → pair.Drained s) :=
  ⟨rfl, (pipeline_drains Nat.one_pos pair_start (Option.some_get _).symm).2⟩

end Plan

end Ekostd.Channel
