/-
  `file.rs` — `BufWriter`.

  The writer inside is any one: a call of its `write_str` may change its state,
  fail, or not return.

  * `op_cases`: a call adds to the buffer, or hands all of it to one call of the
    writer inside and is left with none;
  * `feeds`: what a run has handed to the writer inside, and what it holds;
  * `buf_writer_offers`: in every run, however it ends, every byte is offered
    once and in order.
-/
import Ekostd.Lib.Sts
import Ekostd.Lib.PosixFs

namespace Ekostd.File

/-- A `fmt::Write` with the states `σ`; its `write_str` may not return. -/
structure Writer (σ : Type*) where
  writeStr : Bytes → σ → Option (Except Unit Unit × σ)

/-- `BufWriter`. -/
structure BufWriter (σ : Type*) where
  inner : Option σ
  buf : Bytes

/-- A call of `write_str` or `flush`. -/
inductive BufWriter.Op where
  | writeStr (s : Bytes)
  | flush

/-- How a `BufWriter` ends. -/
inductive BufWriter.Ending where
  | intoInner
  | drop

/-- The bytes that a call hands over. -/
def BufWriter.Op.bytes : Op → Bytes
  | writeStr s => s
  | flush => []

/-- The bytes that calls hand over. -/
def BufWriter.given (ops : List Op) : Bytes := ops.flatMap Op.bytes

variable {σ : Type*} (W : Writer σ)

namespace BufWriter

/-- `BufWriter::new`. -/
def new (inner : σ) : BufWriter σ := ⟨some inner, []⟩

/-- `BufWriter::flush`. -/
def flush (self : BufWriter σ) : Option (Except Unit Unit × BufWriter σ) :=
  if self.buf = [] then some (.ok (), self)
  else
    match self.inner with
    | some w => (W.writeStr self.buf w).map fun (r, w) => (r, ⟨some w, []⟩)
    | none => some (.ok (), ⟨none, []⟩)

/-- `BufWriter::write_str`. -/
def writeStr (s : Bytes) (self : BufWriter σ) : Option (Except Unit Unit × BufWriter σ) :=
  let self : BufWriter σ := { self with buf := self.buf ++ s }
  if 64 * 1024 ≤ self.buf.length then self.flush W else some (.ok (), self)

/-- `drop`. -/
def drop (self : BufWriter σ) : Option (BufWriter σ) := (self.flush W).map Prod.snd

/-- `BufWriter::into_inner`, with the drop that follows it. -/
def intoInner (self : BufWriter σ) : Option (Except String σ) :=
  (self.flush W).bind fun (_, self) =>
    let taken : Except String σ :=
      match self.inner with
      | some w => .ok w
      | none => .error "the writer is taken exactly once"
    (BufWriter.drop W { self with inner := none }).map fun _ => taken

/-- One call. -/
def op (self : BufWriter σ) : Op → Option (Except Unit Unit × BufWriter σ)
  | .writeStr s => self.writeStr W s
  | .flush => self.flush W

/-- The end, and the writer that was inside. -/
def finish (self : BufWriter σ) : Ending → Option (Option σ)
  | .intoInner => (self.intoInner W).map Except.toOption
  | .drop => (self.drop W).map BufWriter.inner

/-- A `BufWriter` around `w`. -/
def system (w : σ) : Sts (BufWriter σ) Op where
  init := new w
  step self o := (self.op W o).map Prod.snd

variable {W} {w w' : σ} {self self' : BufWriter σ} {r : Except Unit Unit} {o : Op} {ops : List Op}

/-! ## What a call does -/

theorem flush_cases (hin : self.inner = some w) (h : self.flush W = some (r, self')) :
    (self.buf = [] ∧ r = .ok () ∧ self' = self) ∨
    ∃ w', W.writeStr self.buf w = some (r, w') ∧ self' = ⟨some w', []⟩ := by
  unfold flush at h
  split_ifs at h with hbuf
  · cases h
    exact .inl ⟨hbuf, rfl, rfl⟩
  · rw [hin] at h
    obtain ⟨⟨r', w'⟩, hw, heq⟩ := Option.map_eq_some_iff.1 h
    cases heq
    exact .inr ⟨w', hw, rfl⟩

/-- **A call keeps what it is given**, or hands all of it over. -/
theorem op_cases (hin : self.inner = some w) (hheld : self.buf.length < 64 * 1024)
    (h : self.op W o = some (r, self')) :
    (r = .ok () ∧ self' = ⟨some w, self.buf ++ o.bytes⟩ ∧ self'.buf.length < 64 * 1024) ∨
    ∃ w', W.writeStr (self.buf ++ o.bytes) w = some (r, w') ∧ self' = ⟨some w', []⟩ := by
  cases o with
  | writeStr s =>
    simp only [op, BufWriter.writeStr] at h
    split_ifs at h with hfull
    · have hin' : ({ self with buf := self.buf ++ s } : BufWriter σ).inner = some w := hin
      rcases flush_cases hin' h with ⟨hempty, -⟩ | hcall
      · have hlen : (self.buf ++ s).length = 0 := congrArg List.length hempty
        omega
      · exact .inr hcall
    · cases h
      exact .inl ⟨rfl, by rw [hin]; rfl, not_le.1 hfull⟩
  | flush =>
    rcases flush_cases hin h with ⟨hbuf, hr, rfl⟩ | hcall
    · refine .inl ⟨hr, ?_, hheld⟩
      simp only [Op.bytes, List.append_nil, ← hin]
    · exact .inr (by simpa [Op.bytes] using hcall)

end BufWriter

/-! ## What the writer inside is given -/

/-- The writer inside, after a call with each of `ss`. -/
def Writer.fed (w : σ) (ss : List Bytes) : Option σ :=
  ss.foldlM (fun w s => (W.writeStr s w).map Prod.snd) w

namespace BufWriter

variable {W} {w w' : σ} {self self' : BufWriter σ} {r : Except Unit Unit} {o : Op} {ops : List Op}

/-- What a run has handed to the writer inside, and what it holds. -/
structure Feeds (W : Writer σ) (w : σ) (given : Bytes) (b : BufWriter σ) (w' : σ)
    (ss : List Bytes) : Prop where
  inner : b.inner = some w'
  fed : W.fed w ss = some w'
  held : b.buf.length < 64 * 1024
  all : ss.flatten ++ b.buf = given

/-- **What a step preserves.** -/
theorem Feeds.op {given : Bytes} {ss : List Bytes} (h : Feeds W w given self w' ss)
    (ho : self.op W o = some (r, self')) :
    ∃ w'' ss', Feeds W w (given ++ o.bytes) self' w'' ss' := by
  rcases op_cases h.inner h.held ho with ⟨-, rfl, hheld⟩ | ⟨w'', hw, rfl⟩
  · exact ⟨w', ss, rfl, h.fed, hheld, by rw [← h.all, List.append_assoc]⟩
  · refine ⟨w'', ss ++ [self.buf ++ o.bytes], rfl, ?_, by simp, ?_⟩
    · have hfed := h.fed
      unfold Writer.fed at hfed ⊢
      simp [List.foldlM_append, hfed, hw]
    · simp [← h.all]

/-- **What is handed over and what is held** is what was written, in every run. -/
theorem feeds (h : (system W w).run ops = some self) :
    ∃ w' ss, Feeds W w (given ops) self w' ss := by
  induction ops using List.reverseRecOn generalizing self with
  | nil =>
    cases h
    exact ⟨w, [], rfl, rfl, by simp [system, new], rfl⟩
  | append_singleton ops o ih =>
    obtain ⟨self₁, h₁, hstep⟩ := Sts.run_snoc_eq_some.1 h
    obtain ⟨⟨r, self₂⟩, ho, rfl⟩ := Option.map_eq_some_iff.1 hstep
    obtain ⟨w₁, ss, hfeeds⟩ := ih h₁
    rw [given, List.flatMap_append, List.flatMap_singleton]
    exact hfeeds.op ho

theorem Feeds.flush {given : Bytes} {ss : List Bytes} (h : Feeds W w given self w' ss)
    (hs : self.flush W = some (r, self')) :
    ∃ w'' ss', self'.inner = some w'' ∧ W.fed w ss' = some w'' ∧ ss'.flatten = given := by
  have hop : self.op W .flush = some (r, self') := hs
  obtain ⟨w'', ss', hfeeds⟩ := h.op hop
  refine ⟨w'', ss', hfeeds.inner, hfeeds.fed, ?_⟩
  have hempty : self'.buf = [] := by
    rcases flush_cases h.inner hs with ⟨hbuf, -, rfl⟩ | ⟨_, -, rfl⟩
    · exact hbuf
    · rfl
  simpa [hempty, Op.bytes] using hfeeds.all

theorem Feeds.finish {given : Bytes} {ss : List Bytes} {e : Ending} {x : Option σ}
    (h : Feeds W w given self w' ss) (hx : self.finish W e = some x) :
    ∃ w'' ss', x = some w'' ∧ W.fed w ss' = some w'' ∧ ss'.flatten = given := by
  cases e with
  | drop =>
    obtain ⟨self', hdrop, rfl⟩ := Option.map_eq_some_iff.1 hx
    obtain ⟨⟨r, self''⟩, hs, rfl⟩ := Option.map_eq_some_iff.1 hdrop
    exact h.flush hs
  | intoInner =>
    obtain ⟨y, hy, rfl⟩ := Option.map_eq_some_iff.1 hx
    obtain ⟨⟨r, self'⟩, hs, htaken⟩ := Option.bind_eq_some_iff.1 hy
    obtain ⟨_, -, rfl⟩ := Option.map_eq_some_iff.1 htaken
    obtain ⟨w'', ss', hin, hfed, hall⟩ := h.flush hs
    exact ⟨w'', ss', by rw [hin]; rfl, hfed, hall⟩

/-! ## Where the writer inside returns -/

theorem flush_isSome (hW : ∀ s w, (W.writeStr s w).isSome) (self : BufWriter σ) :
    (self.flush W).isSome := by
  unfold flush
  split_ifs
  · rfl
  · cases self.inner with
    | none => rfl
    | some w => simpa using hW self.buf w

theorem op_isSome (hW : ∀ s w, (W.writeStr s w).isSome) (self : BufWriter σ) (o : Op) :
    (self.op W o).isSome := by
  cases o with
  | writeStr s =>
    simp only [op, BufWriter.writeStr]
    split_ifs
    · exact flush_isSome hW _
    · rfl
  | flush => exact flush_isSome hW self

theorem finish_isSome (hW : ∀ s w, (W.writeStr s w).isSome) (self : BufWriter σ) (e : Ending) :
    (self.finish W e).isSome := by
  have hdrop : ∀ b : BufWriter σ, (b.drop W).isSome := fun b => by
    simpa [BufWriter.drop] using flush_isSome hW b
  cases e with
  | drop => simpa [finish] using hdrop self
  | intoInner =>
    obtain ⟨⟨r, self'⟩, hs⟩ := Option.isSome_iff_exists.1 (flush_isSome hW self)
    simpa [finish, intoInner, hs] using hdrop _

theorem run_isSome (hW : ∀ s w, (W.writeStr s w).isSome) (w : σ) (ops : List Op) :
    ((system W w).run ops).isSome := by
  induction ops using List.reverseRecOn with
  | nil => rfl
  | append_singleton ops o ih =>
    obtain ⟨self, hs⟩ := Option.isSome_iff_exists.1 ih
    rw [Sts.run_snoc, hs]
    simpa [system] using op_isSome hW self o

end BufWriter

/-! ## What is offered -/

/-- A call of `write_str`. -/
structure Offer where
  text : Bytes
  result : Except Unit Unit

/-- The bytes of the calls. -/
def offered (log : List Offer) : Bytes := log.flatMap Offer.text

/-- The writer, with a record of its calls. -/
def Writer.recorded (W : Writer σ) : Writer (σ × List Offer) where
  writeStr s x := (W.writeStr s x.1).map fun (r, w) => (r, w, x.2 ++ [⟨s, r⟩])

variable {W}

theorem Writer.offered_of_fed {w w' : σ} {log log' : List Offer} {ss : List Bytes}
    (h : W.recorded.fed (w, log) ss = some (w', log')) :
    offered log' = offered log ++ ss.flatten := by
  induction ss generalizing w log with
  | nil =>
    cases h
    simp
  | cons s ss ih =>
    obtain ⟨⟨w₁, log₁⟩, h₁, hrest⟩ := Option.bind_eq_some_iff.1 h
    obtain ⟨⟨r, x⟩, hx, rfl⟩ := Option.map_eq_some_iff.1 h₁
    obtain ⟨⟨r', w₂⟩, -, heq⟩ := Option.map_eq_some_iff.1 hx
    cases heq
    rw [ih hrest]
    simp [offered]

/-- What `BufWriter` does with the bytes it is given. -/
structure OffersOnce (W : Writer σ) (w : σ) : Prop where
  /-- Between calls less than 64 KiB are held, and the rest has been offered in order. -/
  held : ∀ ops self, (BufWriter.system W.recorded (w, [])).run ops = some self →
    self.buf.length < 64 * 1024 ∧
    ∃ w' log, self.inner = some (w', log) ∧ offered log ++ self.buf = BufWriter.given ops
  /-- A call makes one call of the writer inside at most, and fails exactly if that does. -/
  reports : ∀ ops self o r self', (BufWriter.system W.recorded (w, [])).run ops = some self →
    self.op W.recorded o = some (r, self') →
    ∃ w' log w'' made, self.inner = some (w', log) ∧ self'.inner = some (w'', log ++ made) ∧
      made.length ≤ 1 ∧ (r = .error () ↔ ∃ c ∈ made, c.result = .error ())
  /-- In the end all has been offered. -/
  ended : ∀ ops self e x, (BufWriter.system W.recorded (w, [])).run ops = some self →
    self.finish W.recorded e = some x →
    ∃ w' log, x = some (w', log) ∧ offered log = BufWriter.given ops
  /-- The end comes, where every call of the writer inside returns. -/
  returns : (∀ s w, (W.writeStr s w).isSome) → ∀ ops e,
    ∃ self, (BufWriter.system W.recorded (w, [])).run ops = some self ∧
      (self.finish W.recorded e).isSome

/-- **Every byte is offered once and in order**, whatever the writer inside does. -/
theorem buf_writer_offers (W : Writer σ) (w : σ) : OffersOnce W w where
  held ops self h := by
    obtain ⟨⟨w', log⟩, ss, hfeeds⟩ := BufWriter.feeds h
    have hoffered : offered log = [] ++ ss.flatten := Writer.offered_of_fed hfeeds.fed
    refine ⟨hfeeds.held, w', log, hfeeds.inner, ?_⟩
    rw [hoffered, List.nil_append, hfeeds.all]
  reports ops self o r self' h ho := by
    obtain ⟨⟨w', log⟩, ss, hfeeds⟩ := BufWriter.feeds h
    rcases BufWriter.op_cases hfeeds.inner hfeeds.held ho with ⟨rfl, rfl, -⟩ | ⟨x, hx, rfl⟩
    · exact ⟨w', log, w', [], hfeeds.inner, by simp, by simp, by simp⟩
    · obtain ⟨⟨r', w₂⟩, -, heq⟩ := Option.map_eq_some_iff.1 hx
      cases heq
      exact ⟨w', log, w₂, [⟨_, r⟩], hfeeds.inner, rfl, by simp, by simp⟩
  ended ops self e x h hx := by
    obtain ⟨⟨w', log⟩, ss, hfeeds⟩ := BufWriter.feeds h
    obtain ⟨⟨w'', log'⟩, ss', rfl, hfed, hall⟩ := hfeeds.finish hx
    have hoffered : offered log' = [] ++ ss'.flatten := Writer.offered_of_fed hfed
    exact ⟨w'', log', rfl, by rw [hoffered, List.nil_append, hall]⟩
  returns hW ops e := by
    have hrec : ∀ s x, (W.recorded.writeStr s x).isSome := fun s x => by
      simpa [Writer.recorded] using hW s x.1
    obtain ⟨self, hself⟩ := Option.isSome_iff_exists.1 (BufWriter.run_isSome hrec (w, []) ops)
    exact ⟨self, hself, BufWriter.finish_isSome hrec self e⟩

end Ekostd.File
