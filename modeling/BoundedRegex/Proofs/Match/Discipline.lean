import BoundedRegex.Proofs.Match.Agreement

/-!
# Every step keeps the frames in agreement

* `Config.Agrees`: the frames of a configuration, with where its history says that they come from,
  agree with each other and with the path.
* `Config.agrees_step`: a step from such a configuration leads to such a configuration, with the
  history after it.

There is a lemma for what a step may do to the frames (`Config.Tracks.push`, `keep`, `commit`,
`replace` and so on), which is the only place where the history is computed, and a lemma for each
instruction and each kind of frame, which says where the machine goes on.
-/

namespace BoundedRegex

/-- Where the machine is agrees with the path and the frames. -/
def Config.Located (p : Program) (path : List Visit) (frames : List Traced) : Config → Prop
  | running ip pos _ _ => p.Agrees ip pos path frames
  | failing _ => True

/-- A configuration has these frames, and they agree with its history. -/
structure Config.Tracks (p : Program) (h : History) (frames : List Traced) (c : Config) :
    Prop where
  stack : c.stack = frames.map Prod.fst
  origins : h.origins = frames.map Prod.snd
  agree : FramesAgree p frames
  located : c.Located p h.path frames

/-- The frames of a configuration agree with its history. -/
def Config.Agrees (p : Program) (h : History) (c : Config) : Prop :=
  ∃ frames, c.Tracks p h frames

/-- What comes of a step from a configuration agrees with the history after it. -/
def Next.Agrees (p : Program) (h : History) (c : Config) : Next → Prop
  | going c' => c'.Agrees p (h.next p c c')
  | accepted _ _ stack => (Config.failing stack).Agrees p (h.next p c (.failing stack))
  | exhausted | malformed => True

variable {p : Program} {h : History} {frames below : List Traced} {e e' : Entry} {o : Origin}
  {f : LoopEntry} {l : Loop} {ip pos ip' pos' size : Nat} {log log' : List Capture}

namespace Config

/-! ### What a step does to the frames -/

namespace Tracks

section

variable (hc : (running ip pos log (frames.map Prod.fst)).Tracks p h frames)
include hc

theorem push (hentry : e.Agrees p frames (h.origin ip pos))
    (hgo : p.Agrees ip' pos' (h.visit ip pos) ((e, h.origin ip pos) :: frames)) :
    (Next.run ip' pos' log' (e :: frames.map Prod.fst)).Agrees p h
      (running ip pos log (frames.map Prod.fst)) := by
  rw [Next.Agrees, History.next_push hc.origins]
  exact ⟨_, rfl, rfl, ⟨hentry, hc.agree⟩, hgo⟩

theorem keep (hip : p.commitsAt ip = false) (hgo : p.Agrees ip' pos' (h.visit ip pos) frames) :
    (Next.run ip' pos' log' (frames.map Prod.fst)).Agrees p h
      (running ip pos log (frames.map Prod.fst)) := by
  rw [Next.Agrees, History.next_keep hc.origins hip]
  exact ⟨_, rfl, rfl, hc.agree, hgo⟩

theorem fail : (Next.fail (frames.map Prod.fst)).Agrees p h
    (running ip pos log (frames.map Prod.fst)) := by
  rw [Next.Agrees, History.next_fail hc.origins]
  exact ⟨_, rfl, rfl, hc.agree, trivial⟩

theorem accept : (Next.accepted pos' log' (frames.map Prod.fst)).Agrees p h
    (running ip pos log (frames.map Prod.fst)) := by
  rw [Next.Agrees, History.next_fail hc.origins]
  exact ⟨_, rfl, rfl, hc.agree, trivial⟩

end

theorem pop {t : Traced}
    (hc : (running ip pos log ((t :: frames).map Prod.fst)).Tracks p h (t :: frames))
    (hip : p.commitsAt ip = false) (hgo : p.Agrees ip' pos' (h.visit ip pos) frames) :
    (Next.run ip' pos' log' (frames.map Prod.fst)).Agrees p h
      (running ip pos log ((t :: frames).map Prod.fst)) := by
  rw [Next.Agrees, History.next_pop hc.origins hip]
  exact ⟨_, rfl, rfl, hc.agree.2, hgo⟩

theorem commit {above : List Traced}
    (hc : (running ip pos log ((above ++ (e, o) :: below).map Prod.fst)).Tracks p h
      (above ++ (e, o) :: below))
    (hip : p.commitsAt ip = true)
    (hentry : e'.Agrees p below { o with path := h.visit ip pos })
    (hgo : p.Agrees ip' pos' (h.visit ip pos)
      ((e', { o with path := h.visit ip pos }) :: below)) :
    (Next.run ip' pos' log' (e' :: below.map Prod.fst)).Agrees p h
      (running ip pos log ((above ++ (e, o) :: below).map Prod.fst)) := by
  rw [Next.Agrees, History.next_commit hc.origins hip]
  exact ⟨_, rfl, rfl,
    ⟨hentry, (hc.agree.of_suffix ((List.suffix_cons _ _).trans (List.suffix_append _ _)))⟩, hgo⟩

section

variable (hc : (failing (((e, o) :: below : List Traced).map Prod.fst)).Tracks p h
  ((e, o) :: below))
include hc

theorem drop : (Next.fail (below.map Prod.fst)).Agrees p h
    (failing (((e, o) :: below : List Traced).map Prod.fst)) := by
  rw [Next.Agrees, History.next_drop hc.origins]
  exact ⟨_, rfl, rfl, hc.agree.2, trivial⟩

theorem last (hgo : p.Agrees ip' pos' (if p.restarts e then o.entry else o.path) below) :
    (Next.run ip' pos' log' (below.map Prod.fst)).Agrees p h
      (failing (((e, o) :: below : List Traced).map Prod.fst)) := by
  rw [Next.Agrees, History.next_last hc.origins]
  exact ⟨_, rfl, rfl, hc.agree.2, hgo⟩

theorem replace {path : List Visit} (hpath : path = if p.restarts e then o.entry else o.path)
    (hentry : e'.Agrees p below { o with path })
    (hgo : p.Agrees ip' pos' path ((e', { o with path }) :: below)) :
    (Next.run ip' pos' log' (e' :: below.map Prod.fst)).Agrees p h
      (failing (((e, o) :: below : List Traced).map Prod.fst)) := by
  rw [Next.Agrees, History.next_replace hc.origins hpath]
  exact ⟨_, rfl, rfl, ⟨hentry, hc.agree.2⟩, hgo⟩

end

end Tracks

section

variable {input : Array UInt8} (hp : p.Sound) (hb : p.Bracketed)
include hp hb

/-! ### Executing -/

section

variable (hc : (running ip pos log (frames.map Prod.fst)).Tracks p h frames)
include hc

theorem agrees_closeCapture (hs : p.Structured) {index : UInt8}
    (hf : p.fetch? ip = some (.captureEnd index, size)) :
    (closeCapture index (ip + size) pos log (frames.map Prod.fst)).Agrees p h
      (running ip pos log (frames.map Prod.fst)) := by
  have hstarts : p.Starts ip := hc.located.starts
  have hslip := Program.Slip.next hstarts hf rfl
  have hnext : p.Agrees (ip + size) pos (h.visit ip pos) frames :=
    hc.located.close hb hf rfl hslip.flows (hp.next hstarts hf nofun) h.time
      fun _ _ _ hslips => hslips.step hslip
  have hip := Program.commitsAt_of_fetch hf nofun
  unfold closeCapture
  split
  · cases frames with
    | nil => exact hc.keep hip hnext
    | cons t rest =>
      rw [List.map_cons, dropOpening]
      split
      · next hopens =>
        -- The frame is of the bracket that ends here.
        refine hc.pop hip (hnext.pop fun hbracket _ hlast =>
          hbracket.not_owns hs ⟨hstarts, size, hf⟩ hopens (Nat.lt_of_lt_of_le ?_ hlast))
        exact Nat.lt_add_of_pos_right (Program.length_of_fetch? hf).1
      · exact hc.keep hip hnext
  · exact hc.fail

theorem agrees_runByteLoop (hf : p.fetch? ip = some (.loop l, size)) (hk : l.keepsFrames = false)
    (hsingle : l.singleByte = true) (body : Instr) :
    (runByteLoop input ip pos log (frames.map Prod.fst) l body).Agrees p h
      (running ip pos log (frames.map Prod.fst)) := by
  have hvisit : p.Agrees ip pos (h.visit ip pos) frames := hc.located.visit hf rfl h.time
  unfold runByteLoop
  extract_lets rest limit count mayRetry
  split
  · exact hc.fail
  · next hmin =>
    have hmin := Nat.not_lt.1 hmin
    have hgo : p.Agrees (l.after ip) (pos + count) (h.visit ip pos) frames :=
      hvisit.after_bytes hb hp hf hmin
    split
    · next hretry =>
      refine hc.push ⟨l, size, hf, .entering hvisit rfl (Program.begins_of_eq rfl) (fun _ => rfl)
        (fun hsingle' => ?_) (fun hk' => ?_) (fun _ => ⟨hmin, fun hgreedy => ?_⟩) nofun nofun⟩ ?_
      · simp [hsingle] at hsingle'
      · simp [hk] at hk'
      · simpa [mayRetry, hgreedy] using hretry
      · exact hgo.push_behind
          (f := { ip, phase := .exited, pos, log, start := pos, startLog := log, count }) hf
    · exact hc.keep (Program.commitsAt_of_fetch hf nofun) hgo

/-- A loop with a body of several instructions is entered, and may be left at once only if it need
not iterate. -/
theorem agrees_entering (hf : p.fetch? ip = some (.loop l, size)) (hsingle : l.singleByte = false)
    {phase : LoopPhase} (hto : ip' = Loop.body ip ∨ ip' = l.after ip ∧ l.min = 0)
    (hkept : l.keepsFrames = true → phase = .boundary ∨ phase = .counter)
    (hphase : phase = .boundary → l.min = 0) (hactive : phase ≠ .stalled) :
    (Next.run ip' pos log (.entering ip pos log phase 0 :: frames.map Prod.fst)).Agrees p h
      (running ip pos log (frames.map Prod.fst)) := by
  have hvisit : p.Agrees ip pos (h.visit ip pos) frames := hc.located.visit hf rfl h.time
  have hzero (hmin : l.min = 0) : l.min.toNat ≤ 0 := Nat.le_of_eq (UInt8.toNat_inj.2 hmin)
  have hentry : LoopEntry.Agrees p l frames (h.origin ip pos)
      { ip, phase, pos, log, start := pos, startLog := log, count := 0 } :=
    .entering hvisit rfl (Program.begins_of_eq rfl) (fun _ => rfl)
      (fun _ hmin => hvisit.skip hb hp hf (Nat.le_zero.1 hmin)) hkept
      (fun hsingle' => by simp [hsingle] at hsingle')
      (fun hboundary => ⟨hsingle, hzero (hphase hboundary)⟩) hactive
  refine hc.push ⟨l, size, hf, hentry⟩ ?_
  rcases hto with rfl | ⟨rfl, hmin⟩
  · exact hentry.body hb hp hf
  · exact hentry.behind hf hsingle (hzero hmin)

theorem agrees_enterLoop (hf : p.fetch? ip = some (.loop l, size)) :
    (enterLoop p input ip pos log (frames.map Prod.fst) l).Agrees p h
      (running ip pos log (frames.map Prod.fst)) := by
  unfold enterLoop
  extract_lets body after phase
  split
  · next hk =>
    have hsingle := (hp.loop hc.located.starts hf).2.2 hk
    refine agrees_entering hp hb hc hf hsingle ?_ (fun _ => ?_) ?_ ?_
    · split
      · exact Or.inl rfl
      · next hleave =>
        exact Or.inr ⟨rfl, UInt8.le_zero_iff.1 (UInt8.not_lt.1 (not_or.1 hleave).2)⟩
    · simp only [phase]
      split
      · exact Or.inl rfl
      · exact Or.inr rfl
    · simp only [phase]
      split
      · next hmin => exact fun _ => hmin
      · nofun
    · simp only [phase]
      split <;> nofun
  · next hk =>
    split
    · next hsingle =>
      have hsingle : l.singleByte = false := by simpa using hsingle
      split
      · next hlazy =>
        exact agrees_entering hp hb hc hf hsingle (Or.inr ⟨rfl, hlazy.2⟩)
          (fun hk' => absurd hk' hk) nofun nofun
      · exact agrees_entering hp hb hc hf hsingle (Or.inl rfl) (fun hk' => absurd hk' hk) nofun
          nofun
    · next hsingle =>
      split
      · exact agrees_runByteLoop hp hb hc hf (Bool.eq_false_iff.2 hk) (by simpa using hsingle) _
      · trivial

end

/-! ### Ending an iteration -/

section

variable {offset : Int16} {n : Nat} (hend : p.fetch? ip = some (.loopEnd offset, n))
  (htarget : f.ip = offsetTarget ip offset) (hf : p.fetch? f.ip = some (.loop l, size))
  (hbracket : p.Bracket f.ip ip)
include hend htarget hf hbracket

theorem agrees_keepIteration (hstarts : p.Starts f.ip) (hsingle : l.singleByte = false)
    (hafter : l.after f.ip = ip + n)
    (hc : (running ip pos log (frames.map Prod.fst)).Tracks p h frames)
    (hk : l.keepsFrames = true) :
    (keepIteration pos log (frames.map Prod.fst) l f).Agrees p h
      (running ip pos log (frames.map Prod.fst)) := by
  -- Nothing slips to where an iteration ends.
  have hgo {b : Nat} (hflow : p.Flows ip b) (hb' : p.Starts b) :
      p.Agrees b pos (h.visit ip pos) frames :=
    hc.located.close hb hend rfl hflow hb' h.time fun hbracket' hlo hlast hslips =>
      absurd hslips (hb.not_slips hbracket hf hbracket' hlo hlast)
  have hback := hgo ⟨_, n, hend, Or.inr (htarget ▸ List.mem_cons_self)⟩ hstarts
  have hleave := hgo ⟨_, n, hend, Or.inl hafter⟩ (hp.loop hstarts hf).2.1
  have hbegins : p.begins f.ip ⟨h.time, ip, pos⟩ = true := by
    simp [Program.begins, hend, htarget]
  unfold keepIteration
  extract_lets count needed phase
  split
  · have hkept : phase = .boundary ∨ phase = .counter := by
      simp only [phase]
      split
      · exact Or.inr rfl
      · exact Or.inl rfl
    have hphase : phase = .boundary → l.min.toNat ≤ count := by
      simp only [phase]
      split
      · exact fun hcounter => by cases hcounter
      · next hneeded => exact fun _ => by simpa [needed] using hneeded
    have hactive : phase ≠ .stalled := by
      simp only [phase]
      split <;> simp
    have hentry : LoopEntry.Agrees p l frames (h.origin ip pos)
        { ip := f.ip, phase, pos, log, start := pos, startLog := log, count } :=
      .entering hback rfl hbegins (fun hk' => by simp [hk] at hk') (fun _ _ => hleave)
        (fun _ => hkept) (fun hsingle' => by simp [hsingle] at hsingle')
        (fun hboundary => ⟨hsingle, hphase hboundary⟩) hactive
    refine hc.push ⟨l, size, hf, hentry⟩ ?_
    split
    · exact hentry.body hb hp hf
    · next hleave =>
      refine hentry.behind hf hsingle ?_
      simp only [Bool.or_eq_true, not_or, needed, decide_eq_true_eq] at hleave
      exact Nat.not_lt.1 hleave.2
  · refine hc.keep ?_ hleave
    rw [Program.commitsAt_of_loopEnd hend (htarget ▸ hf), hk]
    rfl

theorem agrees_commitIteration {above : List Traced}
    (hc : (running ip pos log ((above ++ (.loop f, o) :: below).map Prod.fst)).Tracks p h
      (above ++ (.loop f, o) :: below))
    (hentry : f.Agrees p l below o) (hk : l.keepsFrames = false)
    (hpath : o.path = h.path.dropWhile (Visit.within f.ip ip)) (hpos : f.pos < pos) :
    (commitIteration input pos log (below.map Prod.fst) l f).Agrees p h
      (running ip pos log ((above ++ (.loop f, o) :: below).map Prod.fst)) := by
  have hbegins : p.begins f.ip ⟨h.time, ip, pos⟩ = true := by
    simp [Program.begins, hend, htarget]
  have hleft : p.Agrees (l.after f.ip) pos (h.visit ip pos) below :=
    hentry.commit_left hb hbracket hpath hp hf hc.located hpos h.time
  have hip : p.commitsAt ip = true := by
    rw [Program.commitsAt_of_loopEnd hend (htarget ▸ hf), hk]
    rfl
  unfold commitIteration
  extract_lets progressed count again phase
  have hprogressed : progressed = true := decide_eq_true (Nat.ne_of_gt hpos)
  have hphase : phase = f.phase ∨ phase = .exited := by
    simp only [phase, hprogressed, Bool.true_or, if_true]
    split
    · exact Or.inl rfl
    · exact Or.inr rfl
  have hentry' : LoopEntry.Agrees p l below { o with path := h.visit ip pos }
      { f with phase, count, pos, log } :=
    hentry.commit hb hbracket hpath hp hf hc.located hpos hbegins hk hphase
  refine hc.commit hip ⟨l, size, hf, hentry'⟩ ?_
  split
  · exact hentry'.body hb hp hf
  · exact hleft.push_behind (f := { f with phase, count, pos, log }) hf

end

theorem agrees_endIteration (hc : (running ip pos log (frames.map Prod.fst)).Tracks p h frames)
    {offset : Int16} {n : Nat} (hend : p.fetch? ip = some (.loopEnd offset, n)) :
    (endIteration p input pos log (frames.map Prod.fst) (offsetTarget ip offset)).Agrees p h
      (running ip pos log (frames.map Prod.fst)) := by
  obtain ⟨l, size, f, o, below, hf, htarget, hbracket, hdrop, hentry, hpath, hpos⟩ :=
    hc.located.ending hc.agree hb hp hend
  obtain ⟨l', size', hstarts, hf', hsingle, hafter⟩ := hp.loopEnd hc.located.starts hend
  rw [← htarget] at hf' hstarts hafter
  cases hf.symm.trans hf'
  rw [← Program.size_of_loopEnd hend] at hafter
  have hfound : (frames.map Prod.fst).dropWhile (fun e => !e.isOfLoop (offsetTarget ip offset)) =
      .loop f :: below.map Prod.fst := by
    rw [List.dropWhile_map]
    exact congrArg (List.map Prod.fst) hdrop
  rw [endIteration, hfound, ← htarget]
  dsimp only
  rw [hf]
  dsimp only
  split
  · next hk =>
    exact agrees_keepIteration hp hb hend htarget hf hbracket hstarts hsingle hafter hc hk
  · next hk =>
    have hframes : frames = frames.takeWhile (fun t => !t.1.isOfLoop (offsetTarget ip offset)) ++
        (.loop f, o) :: below := by
      rw [← hdrop, List.takeWhile_append_dropWhile]
    rw [hframes] at hc ⊢
    exact agrees_commitIteration hp hb hend htarget hf hbracket hc hentry
      (Bool.eq_false_iff.2 hk) hpath hpos

/-- What an instruction leads to agrees with the history. -/
theorem agrees_execute (hs : p.Structured)
    (hc : (running ip pos log (frames.map Prod.fst)).Tracks p h frames) :
    (execute p input ip pos log (frames.map Prod.fst)).Agrees p h
      (running ip pos log (frames.map Prod.fst)) := by
  have hstarts : p.Starts ip := hc.located.starts
  unfold execute
  split
  · trivial
  · next i size hf =>
    have hvisit (hi : i.isClosing = false) : p.Agrees ip pos (h.visit ip pos) frames :=
      hc.located.visit hf hi h.time
    have hip (hi : ∀ offset, i ≠ .loopEnd offset) := Program.commitsAt_of_fetch hf hi
    have hnext (hi : i ≠ .accept) := hp.next hstarts hf hi
    have hown (hi : i.isOpening = false) {b last : Nat} (hbracket : p.Bracket ip last) :
        last < b := by
      rw [hbracket.isOpening hf] at hi
      cases hi
    -- What neither ends a bracket nor opens one goes on inside the same brackets.
    have hgo (hi : i.isClosing = false) (hi' : i.isOpening = false) {b : Nat}
        (hslip : p.Slip ip b) (hb' : p.Starts b) : p.Agrees b pos (h.visit ip pos) frames :=
      (hvisit hi).slip hb hslip hb' (hown hi')
    cases i with
    | accept => exact hc.accept
    | inputStart | inputEnd =>
      dsimp only
      split
      · exact hc.keep (hip (by simp)) (hgo rfl rfl (.next hstarts hf rfl) (hnext (by simp)))
      · exact hc.fail
    | split offset =>
      have hfirst := hgo rfl rfl (.next hstarts hf rfl) (hnext (by simp))
      have hsecond := hgo rfl rfl (.target hstarts hf rfl List.mem_cons_self (by simp))
        (hp.split hstarts hf).2
      exact hc.push hsecond (hfirst.push fun _ _ _ => Program.owns_alternative)
    | jump offset =>
      exact hc.keep (hip (by simp))
        (hgo rfl rfl (.target hstarts hf rfl List.mem_cons_self (by simp)) (hp.jump hstarts hf).2)
    | captureStart index =>
      refine hc.push ⟨ip, size, h.path, hstarts, hf, rfl⟩ ((hvisit rfl).enter hb hf rfl
        (hnext (by simp)) ?_ rfl rfl fun _ => Visit.dropWhile_within_of_head ?_)
      · rw [Program.owns_of_captureStart hf]
        exact decide_eq_true rfl
      · simp [Visit.within]
    | captureEnd index => exact agrees_closeCapture hp hb hc hs hf
    | loop l => exact agrees_enterLoop hp hb hc hf
    | loopEnd offset => exact agrees_endIteration hp hb hc hf
    | anyByte | byte | bitmap | ranges =>
      dsimp only
      split
      · split
        · exact hc.keep (hip (by simp))
            ((hvisit rfl).consume hb ⟨_, size, hf, Or.inl rfl⟩ (hnext (by simp)) (hown rfl)
              (Nat.lt_succ_self pos))
        · exact hc.fail
      · exact hc.fail

/-! ### Going back -/

section

variable (hf : p.fetch? f.ip = some (.loop l, size)) (hentry : f.Agrees p l below o)
  (hc : (failing (((.loop f, o) :: below : List Traced).map Prod.fst)).Tracks p h
    ((.loop f, o) :: below))
include hf hentry hc

theorem agrees_retryByteLoop (hsingle : l.singleByte = true) :
    (retryByteLoop p input (below.map Prod.fst) l f).Agrees p h
      (failing (((.loop f, o) :: below : List Traced).map Prod.fst)) := by
  obtain ⟨hpath, hmin, hless⟩ := hentry.bytes hsingle
  have hresumed : o.path = if p.restarts (.loop f) then o.entry else o.path := by
    rw [hpath, ite_self]
  have hleave {k : Nat} (hk : l.min.toNat ≤ k) :
      p.Agrees (l.after f.ip) (f.start + k) o.path below :=
    hpath ▸ hentry.entered.after_bytes hb hp hf hk
  -- The frame stays, with another number of iterations.
  have hput {k : Nat} (hk : l.min.toNat ≤ k) (hless : l.greedy = true → l.min.toNat < k) :
      (Next.run (l.after f.ip) (f.start + k) f.log
        (.loop { f with count := k } :: below.map Prod.fst)).Agrees p h
        (failing (((.loop f, o) :: below : List Traced).map Prod.fst)) := by
    refine hc.replace hresumed ⟨l, size, hf, ?_⟩
      ((hleave hk).push_behind (f := { f with count := k }) hf)
    exact { hentry with
      left := fun hsingle' => by simp [hsingle] at hsingle'
      bytes := fun _ => ⟨hpath, hk, hless⟩
      boundary := fun hboundary => absurd (hentry.boundary hboundary).1 (by simp [hsingle]) }
  unfold retryByteLoop
  split
  · next hgreedy =>
    have hless := hless hgreedy
    dsimp only
    split
    · exact hc.last (hresumed ▸ hleave (by omega))
    · exact hput (by omega) fun _ => by omega
  · next hgreedy =>
    split
    · trivial
    · split
      · split
        · exact hput (Nat.le_succ_of_le hmin) fun hgreedy' => absurd hgreedy' hgreedy
        · exact hc.drop
      · exact hc.drop

theorem agrees_retryLoop (hsingle : l.singleByte = false) (hk : l.keepsFrames = false) :
    (retryLoop input (below.map Prod.fst) l f).Agrees p h
      (failing (((.loop f, o) :: below : List Traced).map Prod.fst)) := by
  have hrestarts := Program.restarts_loop hf
  unfold retryLoop
  extract_lets body after resume target fresh
  cases hphase : f.phase with
  | iterating =>
    have hpath : o.path = if p.restarts (.loop f) then o.entry else o.path := by
      rw [hrestarts, hphase]
      rfl
    dsimp only
    split
    · next hleave =>
      have hentry' : LoopEntry.Agrees p l below o { f with phase := .exited } :=
        hentry.rephase (fun hk' => absurd hk' (by simp [hk])) nofun nofun
      exact hc.replace hpath ⟨l, size, hf, hentry'⟩ (hentry'.behind hf hsingle hleave.2)
    · exact hc.drop
  | exited =>
    dsimp only
    split
    · next hgreedy =>
      split
      · next hmin =>
        have hpath : o.entry = if p.restarts (.loop f) then o.entry else o.path := by
          rw [hrestarts, hphase, hgreedy]
          rfl
        split
        · next htarget =>
          have hentry' : LoopEntry.Agrees p l below { o with path := o.entry } fresh :=
            hentry.restart hb hp hf hk hsingle (by simp [hphase]) (by simp [hphase])
          exact hc.replace hpath ⟨l, size, hf, hentry'⟩ (hentry'.behind hf hsingle (by omega))
        · have hentry' : LoopEntry.Agrees p l below { o with path := o.entry }
              { fresh with phase := .replaying target } :=
            hentry.restart hb hp hf hk hsingle nofun nofun
          exact hc.replace hpath ⟨l, size, hf, hentry'⟩ (hentry'.body hb hp hf)
      · exact hc.drop
    · next hgreedy =>
      split
      · have hpath : o.path = if p.restarts (.loop f) then o.entry else o.path := by
          rw [hrestarts, hphase, Bool.eq_false_iff.2 hgreedy]
          rfl
        have hentry' : LoopEntry.Agrees p l below o { f with phase := .iterating } :=
          hentry.rephase (fun hk' => absurd hk' (by simp [hk])) nofun nofun
        exact hc.replace hpath ⟨l, size, hf, hentry'⟩ (hentry'.body hb hp hf)
      · exact hc.drop
  | replaying | stalled | boundary | counter => exact hc.drop

theorem agrees_retryBoundary (hphase : f.phase = .boundary) :
    (retryBoundary (below.map Prod.fst) l f).Agrees p h
      (failing (((.loop f, o) :: below : List Traced).map Prod.fst)) := by
  obtain ⟨hsingle, hmin⟩ := hentry.boundary hphase
  have hpath : o.path = if p.restarts (.loop f) then o.entry else o.path := by
    rw [Program.restarts_loop hf, hphase]
    rfl
  unfold retryBoundary
  split
  · exact hc.last (hpath ▸ hentry.left hsingle hmin)
  · have hentry' : LoopEntry.Agrees p l below o { f with phase := .counter } :=
      hentry.rephase (fun _ => rfl) nofun nofun
    exact hc.replace hpath ⟨l, size, hf, hentry'⟩ (hentry'.body hb hp hf)

end

/-- What going back to a frame leads to agrees with the history. -/
theorem agrees_backtrack (hc : (failing (frames.map Prod.fst)).Tracks p h frames) :
    (backtrack p input (frames.map Prod.fst)).Agrees p h (failing (frames.map Prod.fst)) := by
  match frames with
  | [] => trivial
  | (.alternative _ _ _, _) :: _ =>
    exact hc.last hc.agree.1
  | (.capture _ _, _) :: _ => exact hc.drop
  | (.loop f, o) :: below =>
    obtain ⟨l, size, hf, hentry⟩ := hc.agree.1
    rw [List.map_cons, backtrack]
    split
    · exact hc.drop
    · next hcounter =>
      rw [hf]
      dsimp only
      split
      · next hphase => exact agrees_retryBoundary hp hb hf hentry hc hphase
      · next hboundary =>
        split
        · next hsingle => exact agrees_retryByteLoop hp hb hf hentry hc hsingle
        · next hsingle =>
          exact agrees_retryLoop hp hb hf hentry hc (Bool.eq_false_iff.2 hsingle)
            (Bool.eq_false_iff.2 fun hk => (hentry.kept hk).2.elim hboundary hcounter)

/-- **A step keeps the frames in agreement with the history.** -/
theorem agrees_step (hs : p.Structured) {c : Config} (hc : c.Agrees p h) :
    (c.step p input).Agrees p h c := by
  obtain ⟨frames, hc⟩ := hc
  cases c with
  | running ip pos log stack =>
    obtain rfl : stack = frames.map Prod.fst := hc.stack
    exact agrees_execute hp hb hs hc
  | failing stack =>
    obtain rfl : stack = frames.map Prod.fst := hc.stack
    exact agrees_backtrack hp hb hc

end

end Config

end BoundedRegex
