import BoundedRegex.Proofs.Match.Above

/-!
# What a step makes of the entry of a loop

A loop that commits its iterations has one entry, which each step leaves as it is, unless the loop
is entered, an iteration of it is committed, or the entry is taken back.

* `Config.Makes`: a step of one of these three kinds.
* `Config.exists_on_or_makes`: an entry of such a loop that is on the stack after a step was there
  before, as it is, or the step is of one of these kinds.
-/

namespace BoundedRegex

/-- At an address there is a loop with a body of several instructions, which commits its
iterations. -/
structure Program.Commits (p : Program) (lo : Nat) (l : Loop) : Prop where
  fetch : ∃ size, p.fetch? lo = some (.loop l, size)
  commits : l.keepsFrames = false
  several : l.singleByte = false

/-- A step puts the entry of the loop at an address on top of those below it. -/
inductive Config.Makes (p : Program) (input : Array UInt8) (lo : Nat) (l : Loop)
    (below : List Entry) : Config → Config → Prop
  /-- The loop is entered. -/
  | entered {d : Config} {pos : Nat} {log : List Capture}
      (hd : Config.enterLoop p input lo pos log below l = .going d) :
      Makes p input lo l below (.running lo pos log below) d
  /-- An iteration of it is committed. -/
  | committed {c d : Config} {t : Point} {f : LoopEntry} (hip : f.ip = lo) (hends : c.Ends p lo t)
      (hunderway : f.Underway l)
      (hd : Config.commitIteration input t.pos t.log below l f = .going d) :
      Makes p input lo l below (c.on (.loop f :: below)) d
  /-- Its entry is taken back. -/
  | retried {d : Config} {f : LoopEntry} (hip : f.ip = lo)
      (hd : Config.retryLoop input below l f = .going d) :
      Makes p input lo l below (.failing (.loop f :: below)) d

variable {p : Program} {input : Array UInt8} {c d : Config} {base below stack : List Entry}
  {ip lo pos size : Nat} {log : List Capture} {l : Loop} {e : Entry} {f g : LoopEntry}

theorem Program.Commits.eq_of_fetch {l' : Loop} (h : p.Commits lo l)
    (hf : p.fetch? lo = some (.loop l', size)) : l' = l := by
  obtain ⟨n, hf'⟩ := h.fetch
  cases hf.symm.trans hf'
  rfl

namespace Config

/-- A configuration with these entries on its stack is one on top of them. -/
theorem exists_on_of_suffix (h : base <:+ c.stack) : ∃ c₀ : Config, c = c₀.on base := by
  obtain ⟨above, habove⟩ := h
  cases c with
  | running ip pos log stack => exact ⟨.running ip pos log above, by rw [on, habove, Config.stack]⟩
  | failing stack => exact ⟨.failing above, by rw [on, habove, Config.stack]⟩

end Config

/-- What comes of a step leaves of the stack what it does not drop, with at most one entry more; if
that is of a loop that commits its iterations, the step has made it. -/
def Next.Leaves (p : Program) (input : Array UInt8) (c : Config) : Next → Prop
  | going d => d.stack <:+ c.stack ∨ ∃ e S, d.stack = e :: S ∧ S <:+ c.stack ∧
      ∀ g l, e = .loop g → p.Commits g.ip l → c.Makes p input g.ip l S d
  | accepted _ _ _ | exhausted | malformed => True

namespace Next.Leaves

/-- A step that pushes an entry which is of no loop. -/
theorem push (hstack : stack <:+ c.stack) (he : ∀ g, e ≠ .loop g) :
    (Next.run ip pos log (e :: stack)).Leaves p input c :=
  Or.inr ⟨e, stack, rfl, hstack, fun g _ heq => absurd heq (he g)⟩

/-- A step that pushes an entry of a loop. -/
theorem put (hstack : stack <:+ c.stack)
    (hmakes : ∀ l, p.Commits g.ip l →
      c.Makes p input g.ip l stack (.running ip pos log (.loop g :: stack))) :
    (Next.run ip pos log (.loop g :: stack)).Leaves p input c := by
  refine Or.inr ⟨.loop g, stack, rfl, hstack, ?_⟩
  rintro _ l ⟨⟩ hl
  exact hmakes l hl

end Next.Leaves

namespace Config

theorem dropOpening_suffix (index : UInt8) (stack : List Entry) :
    dropOpening index stack <:+ stack := by
  cases stack with
  | nil => exact List.suffix_refl _
  | cons e rest =>
    rw [dropOpening]
    split
    · exact List.suffix_cons e rest
    · exact List.suffix_refl _

theorem leaves_enterLoop (hf : p.fetch? ip = some (.loop l, size)) :
    (enterLoop p input ip pos log stack l).Leaves p input (.running ip pos log stack) := by
  have hput {ip' pos' count : Nat} {phase : LoopPhase}
      (heq : enterLoop p input ip pos log stack l =
        .run ip' pos' log (.entering ip pos log phase count :: stack)) :
      (Next.run ip' pos' log (.entering ip pos log phase count :: stack)).Leaves p input
        (.running ip pos log stack) := by
    refine .put (List.suffix_refl stack) fun l' hl => ?_
    obtain rfl := hl.eq_of_fetch hf
    exact .entered heq
  have hsame : stack <:+ (running ip pos log stack).stack := List.suffix_refl stack
  generalize hresult : enterLoop p input ip pos log stack l = result at hput ⊢
  unfold enterLoop at hresult
  extract_lets at hresult
  split at hresult
  · subst hresult
    exact hput rfl
  · split at hresult
    · split at hresult <;> subst hresult <;> exact hput rfl
    · split at hresult
      · unfold runByteLoop at hresult
        extract_lets at hresult
        split at hresult
        · subst hresult
          exact Or.inl hsame
        · split at hresult <;> subst hresult
          · exact hput rfl
          · exact Or.inl hsame
      · subst hresult
        trivial

section

variable (hp : p.Sound)
include hp

theorem leaves_endIteration (h : p.Resumes ip log stack) {offset : Int16}
    (hend : p.fetch? ip = some (.loopEnd offset, size)) :
    (endIteration p input pos log stack (offsetTarget ip offset)).Leaves p input
      (.running ip pos log stack) := by
  obtain ⟨l, n, -, hf, hsingle, -⟩ := hp.loopEnd h.starts hend
  have hsame : stack <:+ (running ip pos log stack).stack := List.suffix_refl stack
  unfold endIteration
  split
  · next f below hdrop =>
    obtain ⟨hof, hsuffix⟩ := dropWhile_isOfLoop_eq hdrop
    have htarget : f.ip = offsetTarget ip offset := of_decide_eq_true hof
    rw [hf]
    rw [← htarget] at hf
    dsimp only
    split
    · next hk =>
      unfold keepIteration
      extract_lets
      split
      · refine .put hsame fun l' hl => ?_
        obtain rfl := hl.eq_of_fetch hf
        exact absurd hk (Bool.eq_false_iff.1 hl.commits)
      · exact Or.inl hsame
    · next hk =>
      have habove := List.takeWhile_append_dropWhile (p := fun e => !e.isOfLoop f.ip) (l := stack)
      rw [htarget, hdrop, ← htarget] at habove
      have hnone : ∀ e ∈ stack.takeWhile (fun e => !e.isOfLoop f.ip), e.isOfLoop f.ip = false := by
        intro e he
        simpa using List.mem_takeWhile_imp he
      refine .put ((List.suffix_cons _ below).trans hsuffix) fun l' hl => ?_
      obtain rfl := hl.eq_of_fetch hf
      have hinside := hp.inside_loopEnd h.starts hend (htarget ▸ hf)
      obtain ⟨g, below', hdrop', hunderway⟩ := h.attended _ l hinside hl.commits hsingle
      cases hdrop.symm.trans hdrop'
      have hc : running ip pos log stack = (running ip pos log
          (stack.takeWhile fun e => !e.isOfLoop f.ip)).on (.loop f :: below) := by
        rw [on, habove]
      rw [hc]
      exact .committed rfl (.intro hend htarget.symm hnone) hunderway rfl
  · exact Or.inl hsame

theorem leaves_execute (h : p.Resumes ip log stack) :
    (execute p input ip pos log stack).Leaves p input (.running ip pos log stack) := by
  have hsame : stack <:+ (running ip pos log stack).stack := List.suffix_refl stack
  unfold execute
  split
  · trivial
  · next i size hf =>
    cases i with
    | accept => trivial
    | inputStart | inputEnd =>
      dsimp only
      split <;> exact Or.inl hsame
    | split | captureStart => exact .push hsame (by simp)
    | jump => exact Or.inl hsame
    | captureEnd index =>
      dsimp only
      unfold closeCapture
      split
      · exact Or.inl (dropOpening_suffix index stack)
      · exact Or.inl hsame
    | loop l => exact leaves_enterLoop hf
    | loopEnd offset => exact leaves_endIteration hp h hf
    | byte | anyByte | bitmap | ranges =>
      dsimp only
      split
      · split <;> exact Or.inl hsame
      · exact Or.inl hsame

end

theorem leaves_retryByteLoop (hf : p.fetch? f.ip = some (.loop l, size))
    (hsingle : l.singleByte = true) :
    (retryByteLoop p input below l f).Leaves p input (.failing (.loop f :: below)) := by
  have hbelow : below <:+ (failing (.loop f :: below)).stack := List.suffix_cons _ below
  have hput (count pos : Nat) : (Next.run (l.after f.ip) pos f.log
      (.loop { f with count } :: below)).Leaves p input (.failing (.loop f :: below)) := by
    refine .put hbelow fun l' hl => ?_
    obtain rfl := hl.eq_of_fetch hf
    cases hsingle.symm.trans hl.several
  unfold retryByteLoop
  split
  · dsimp only
    split
    · exact Or.inl hbelow
    · exact hput _ _
  · split
    · trivial
    · split
      · split
        · exact hput _ _
        · exact Or.inl hbelow
      · exact Or.inl hbelow

theorem leaves_retryLoop (hf : p.fetch? f.ip = some (.loop l, size)) :
    (retryLoop input below l f).Leaves p input (.failing (.loop f :: below)) := by
  have hbelow : below <:+ (failing (.loop f :: below)).stack := List.suffix_cons _ below
  have hput {g : LoopEntry} {ip' : Nat} (hip : g.ip = f.ip)
      (heq : retryLoop input below l f = .run ip' g.pos g.log (.loop g :: below)) :
      (Next.run ip' g.pos g.log (.loop g :: below)).Leaves p input
        (.failing (.loop f :: below)) := by
    refine .put hbelow fun l' hl => ?_
    obtain rfl := hl.eq_of_fetch (hip ▸ hf)
    exact .retried hip.symm heq
  generalize hresult : retryLoop input below l f = result at hput ⊢
  unfold retryLoop at hresult
  extract_lets at hresult
  split at hresult
  · split at hresult <;> subst hresult
    · exact hput rfl rfl
    · exact Or.inl hbelow
  · split at hresult
    · split at hresult
      · split at hresult <;> subst hresult <;> exact hput rfl rfl
      · subst hresult
        exact Or.inl hbelow
    · split at hresult <;> subst hresult
      · exact hput rfl rfl
      · exact Or.inl hbelow
  · subst hresult
    exact Or.inl hbelow

theorem leaves_backtrack (hstack : StackRegular p stack) :
    (backtrack p input stack).Leaves p input (.failing stack) := by
  cases stack with
  | nil => trivial
  | cons e below =>
    have hbelow : below <:+ (failing (e :: below)).stack := List.suffix_cons _ below
    cases e with
    | alternative | capture => exact Or.inl hbelow
    | loop f =>
      obtain ⟨⟨l, size, hf, hentry⟩, -⟩ := hstack
      unfold backtrack
      dsimp only
      rw [hf]
      split
      · exact Or.inl hbelow
      · dsimp only
        split
        · next hphase =>
          unfold retryBoundary
          split
          · exact Or.inl hbelow
          · refine .put hbelow fun l' hl => ?_
            obtain rfl := hl.eq_of_fetch hf
            exact absurd hl.commits (by simp [(hentry.phase.of_boundary hphase).1])
        · split
          · next hsingle => exact leaves_retryByteLoop hf hsingle
          · exact leaves_retryLoop hf

/-- What a step from a regular configuration leaves of the stack. -/
theorem leaves_step (hp : p.Sound) (hc : c.Regular p) : (c.step p input).Leaves p input c := by
  cases c with
  | running ip pos log stack => exact leaves_execute hp hc.1
  | failing stack => exact leaves_backtrack hc

/-- **An entry of a loop that commits its iterations is there before a step, or the step makes
it.** -/
theorem exists_on_or_makes (hp : p.Sound) (hc : c.Regular p)
    (hstep : c.step p input = .going (d.on (.loop g :: below))) (hl : p.Commits g.ip l) :
    (∃ c₀ : Config, c = c₀.on (.loop g :: below)) ∨
      c.Makes p input g.ip l below (d.on (.loop g :: below)) := by
  have hleaves : (c.step p input).Leaves p input c := leaves_step hp hc
  rw [hstep] at hleaves
  have hd : .loop g :: below <:+ (d.on (.loop g :: below)).stack := by
    rw [stack_on]
    exact List.suffix_append _ _
  rcases hleaves with hsuffix | ⟨e, S, heq, hsuffix, hmakes⟩
  · exact Or.inl (exists_on_of_suffix (hd.trans hsuffix))
  · rcases List.suffix_cons_iff.1 (heq ▸ hd) with hcons | hS
    · obtain ⟨rfl, rfl⟩ := List.cons.inj hcons
      exact Or.inr (hmakes g l rfl hl)
    · exact Or.inl (exists_on_of_suffix (hS.trans hsuffix))

end Config

end BoundedRegex
