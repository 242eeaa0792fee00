import Mathlib.Data.List.TakeWhile
import BoundedRegex.Proofs.Code.Enclosed
import BoundedRegex.Proofs.Match.Regular

/-!
# Running on top of the entry of a loop

While a loop is in an iteration, the machine runs on top of the entry of the loop, and what it does
there does not depend on what the entry holds.

* `Config.on`: a configuration on top of more entries.
* `Config.Inside`: all the places to which the machine may go, in such a configuration, are inside
  the loop.
* `Config.Inside.step`: then so are those after a step, and the step is the same whatever the entry
  of the loop holds; unless the iteration is at its end, or has failed, or the step drops the entry.
-/

namespace BoundedRegex

/-! ### Configurations on top of more entries -/

/-- A configuration on top of more entries. -/
def Config.on (c : Config) (base : List Entry) : Config :=
  match c with
  | .running ip pos log stack => .running ip pos log (stack ++ base)
  | .failing stack => .failing (stack ++ base)

/-- What comes of a step, on top of more entries. -/
def Next.on (next : Next) (base : List Entry) : Next :=
  match next with
  | .going c => .going (c.on base)
  | .accepted pos log stack => .accepted pos log (stack ++ base)
  | .exhausted => .exhausted
  | .malformed => .malformed

variable {p : Program} {input : Array UInt8} {c d : Config} {base below stack : List Entry}
  {ip pos lo size : Nat} {log : List Capture} {l : Loop} {f g : LoopEntry}

@[simp] theorem Config.stack_on (c : Config) (base : List Entry) :
    (c.on base).stack = c.stack ++ base := by
  cases c <;> rfl

@[simp] theorem Config.log_on (c : Config) (base : List Entry) : (c.on base).log = c.log := by
  cases c <;> rfl

theorem Config.on_inj (h : c.on base = d.on base) : c = d := by
  cases c <;> cases d <;> simp_all [Config.on]

theorem Next.eq_going_of_on {next : Next} (h : next.on base = .going (d.on base)) :
    next = .going d := by
  cases next with
  | going c => rw [Config.on_inj (Next.going.inj h)]
  | _ => cases h

namespace Config

/-! ### Steps that do not look below -/

theorem runByteLoop_on (input : Array UInt8) (ip pos : Nat) (log : List Capture)
    (stack base : List Entry) (l : Loop) (body : Instr) :
    runByteLoop input ip pos log (stack ++ base) l body =
      (runByteLoop input ip pos log stack l body).on base := by
  unfold runByteLoop
  extract_lets
  split
  · rfl
  · split <;> rfl

theorem enterLoop_on (p : Program) (input : Array UInt8) (ip pos : Nat) (log : List Capture)
    (stack base : List Entry) (l : Loop) :
    enterLoop p input ip pos log (stack ++ base) l =
      (enterLoop p input ip pos log stack l).on base := by
  unfold enterLoop
  extract_lets
  split
  · rfl
  · split
    · split <;> rfl
    · split
      · exact runByteLoop_on ..
      · rfl

/-- An instruction that ends no bracket does not look at the stack. -/
theorem execute_on {i : Instr} (hf : p.fetch? ip = some (i, size)) (hloop : ∀ o, i ≠ .loopEnd o)
    (hcapture : ∀ index, i ≠ .captureEnd index) :
    execute p input ip pos log (stack ++ base) = (execute p input ip pos log stack).on base := by
  unfold execute
  rw [hf]
  cases i with
  | accept | split | jump | captureStart => rfl
  | inputStart | inputEnd =>
    dsimp only
    split <;> rfl
  | loop l => exact enterLoop_on ..
  | loopEnd o => exact absurd rfl (hloop o)
  | captureEnd index => exact absurd rfl (hcapture index)
  | byte | anyByte | bitmap | ranges =>
    dsimp only
    split
    · split <;> rfl
    · rfl

theorem keepIteration_on (pos : Nat) (log : List Capture) (stack base : List Entry) (l : Loop)
    (f : LoopEntry) :
    keepIteration pos log (stack ++ base) l f = (keepIteration pos log stack l f).on base := by
  unfold keepIteration
  extract_lets
  split <;> rfl

theorem commitIteration_on (input : Array UInt8) (pos : Nat) (log : List Capture)
    (below base : List Entry) (l : Loop) (f : LoopEntry) :
    commitIteration input pos log (below ++ base) l f =
      (commitIteration input pos log below l f).on base :=
  rfl

theorem retryBoundary_on (below base : List Entry) (l : Loop) (f : LoopEntry) :
    retryBoundary (below ++ base) l f = (retryBoundary below l f).on base := by
  unfold retryBoundary
  split <;> rfl

theorem retryByteLoop_on (p : Program) (input : Array UInt8) (below base : List Entry) (l : Loop)
    (f : LoopEntry) :
    retryByteLoop p input (below ++ base) l f = (retryByteLoop p input below l f).on base := by
  unfold retryByteLoop
  split
  · extract_lets
    split <;> rfl
  · split
    · rfl
    · split
      · split <;> rfl
      · rfl

theorem retryLoop_on (input : Array UInt8) (below base : List Entry) (l : Loop) (f : LoopEntry) :
    retryLoop input (below ++ base) l f = (retryLoop input below l f).on base := by
  unfold retryLoop
  extract_lets
  split
  · split <;> rfl
  · split
    · split
      · split <;> rfl
      · rfl
    · split <;> rfl
  · rfl

/-- Only the topmost entry is taken back. -/
theorem backtrack_on (p : Program) (input : Array UInt8) (e : Entry) (stack base : List Entry) :
    backtrack p input (e :: (stack ++ base)) = (backtrack p input (e :: stack)).on base := by
  cases e with
  | alternative | capture => rfl
  | loop f =>
    simp only [backtrack]
    split
    · rfl
    · split
      · rfl
      · split
        · exact retryBoundary_on ..
        · split
          · exact retryByteLoop_on ..
          · exact retryLoop_on ..
      · rfl

/-! ### Steps that look below, but not at the entry of a loop -/

theorem dropOpening_on (index : UInt8) (stack below : List Entry) (g : LoopEntry) :
    dropOpening index (stack ++ .loop g :: below) =
      dropOpening index stack ++ .loop g :: below := by
  cases stack with
  | nil => rfl
  | cons e stack =>
    rw [List.cons_append, dropOpening, dropOpening]
    split <;> rfl

theorem find?_opens_on (index : UInt8) (stack below : List Entry) (g : LoopEntry) :
    (stack ++ .loop g :: below).find? (Entry.opens index) =
      (stack ++ below).find? (Entry.opens index) := by
  rw [List.find?_append, List.find?_append, List.find?_cons_of_neg (by simp [Entry.opens])]

/-- Where a capture is closed, the entry of a loop is passed over. -/
theorem closeCapture_on (index : UInt8) (next pos : Nat) (log : List Capture)
    (stack below : List Entry) :
    (∃ start, ∀ g : LoopEntry, closeCapture index next pos log (stack ++ .loop g :: below) =
      (Next.run next pos (log ++ [⟨index, start, pos⟩]) (dropOpening index stack)).on
        (.loop g :: below)) ∨
    ∀ g : LoopEntry, closeCapture index next pos log (stack ++ .loop g :: below) =
      (Next.fail stack).on (.loop g :: below) := by
  simp only [closeCapture, find?_opens_on, dropOpening_on]
  cases (stack ++ below).find? (Entry.opens index) with
  | none => exact Or.inr fun g => rfl
  | some e =>
    cases e with
    | capture i start => exact Or.inl ⟨start, fun g => rfl⟩
    | alternative | loop => exact Or.inr fun g => rfl

/-- The entry of the loop at an address, if it has one on the stack, is found above what lies
below. -/
theorem endIteration_of_mem (p : Program) (input : Array UInt8) (pos : Nat) (log : List Capture)
    (base : List Entry) {a : Nat} (h : ∃ e ∈ stack, e.isOfLoop a = true) :
    endIteration p input pos log (stack ++ base) a =
      (endIteration p input pos log stack a).on base := by
  obtain ⟨e, he, hof⟩ := h
  have hne : stack.dropWhile (fun e => !e.isOfLoop a) ≠ [] := by
    intro hnil
    have hnot := List.dropWhile_eq_nil_iff.1 hnil e he
    rw [hof] at hnot
    cases hnot
  have happend : (stack ++ base).dropWhile (fun e => !e.isOfLoop a) =
      stack.dropWhile (fun e => !e.isOfLoop a) ++ base := by
    rw [List.dropWhile_append, if_neg (by simpa using hne)]
  unfold endIteration
  rw [happend]
  cases hfound : stack.dropWhile (fun e => !e.isOfLoop a) with
  | nil => exact absurd hfound hne
  | cons e rest =>
    cases e with
    | alternative | capture => rfl
    | loop f =>
      dsimp only [List.cons_append]
      split
      · split
        · exact keepIteration_on ..
        · exact commitIteration_on ..
      · rfl
      · rfl

/-- If it has none there, and is not the loop whose entry is passed over, it is found below. -/
theorem endIteration_of_not_mem (p : Program) (input : Array UInt8) (pos : Nat)
    (log : List Capture) (below : List Entry) {a : Nat} (h : ∀ e ∈ stack, e.isOfLoop a = false)
    (hne : a ≠ lo) :
    (∃ f l size, f.ip = a ∧ p.fetch? a = some (.loop l, size) ∧ ∀ g : LoopEntry, g.ip = lo →
      endIteration p input pos log (stack ++ .loop g :: below) a =
        (keepIteration pos log stack l f).on (.loop g :: below)) ∨
    (∀ g : LoopEntry, g.ip = lo → endIteration p input pos log (stack ++ .loop g :: below) a =
      (Next.fail stack).on (.loop g :: below)) ∨
    ∃ next : Next, (∀ d, next = .going d → d.stack.length ≤ below.length) ∧
      ∀ g : LoopEntry, g.ip = lo →
        endIteration p input pos log (stack ++ .loop g :: below) a = next := by
  have hdrop (g : LoopEntry) (hg : g.ip = lo) :
      (stack ++ .loop g :: below).dropWhile (fun e => !e.isOfLoop a) =
        below.dropWhile (fun e => !e.isOfLoop a) := by
    rw [List.dropWhile_append_of_pos (by simpa using h), List.dropWhile_cons_of_pos]
    simp only [Entry.isOfLoop, hg, Bool.not_eq_true', decide_eq_false_iff_not]
    exact hne.symm
  unfold endIteration
  cases hfound : below.dropWhile (fun e => !e.isOfLoop a) with
  | nil =>
    refine Or.inr (Or.inl fun g hg => ?_)
    rw [hdrop g hg, hfound]
    rfl
  | cons e rest =>
    obtain ⟨hof, hsuffix⟩ := dropWhile_isOfLoop_eq hfound
    cases e with
    | alternative | capture => cases hof
    | loop f =>
      cases hf : p.fetch? a with
      | none =>
        refine Or.inr (Or.inr ⟨.malformed, nofun, fun g hg => ?_⟩)
        rw [hdrop g hg, hfound]
      | some fetched =>
        obtain ⟨i, size⟩ := fetched
        cases i with
        | loop l =>
          by_cases hk : l.keepsFrames = true
          · refine Or.inl ⟨f, l, size, of_decide_eq_true hof, rfl, fun g hg => ?_⟩
            rw [hdrop g hg, hfound]
            exact (if_pos hk).trans (keepIteration_on ..)
          · refine Or.inr (Or.inr ⟨commitIteration input pos log rest l f, ?_, fun g hg => ?_⟩)
            · rintro d ⟨⟩
              exact hsuffix.length_le
            · rw [hdrop g hg, hfound]
              exact if_neg hk
        | _ =>
          refine Or.inr (Or.inl fun g hg => ?_)
          rw [hdrop g hg, hfound]
          rfl

end Config

/-! ### Inside a loop -/

/-- An instruction starts at an address inside a loop. -/
structure Program.Within (p : Program) (lo : Nat) (l : Loop) (a : Nat) : Prop where
  starts : p.Starts a
  inside : p.Inside lo l a

/-- A frame goes back to a place inside a loop. -/
def Entry.Inside (p : Program) (lo : Nat) (l : Loop) : Entry → Prop
  | alternative ip _ _ => p.Within lo l ip
  | capture _ _ => True
  | loop f => p.Within lo l f.ip

/-- The machine is inside a loop, and goes back only to places inside it. -/
def Config.Inside (p : Program) (lo : Nat) (l : Loop) : Config → Prop
  | running ip _ _ stack => p.Within lo l ip ∧ ∀ e ∈ stack, e.Inside p lo l
  | failing stack => ∀ e ∈ stack, e.Inside p lo l

/-- What comes of a step is inside a loop. -/
def Next.Inside (p : Program) (lo : Nat) (l : Loop) : Next → Prop
  | going c => c.Inside p lo l
  | accepted _ _ _ | exhausted | malformed => True

/-- The machine is at the end of an iteration of a loop, whose entry is the next one below. -/
inductive Config.Ends (p : Program) (lo : Nat) : Config → Point → Prop
  | intro {a pos size : Nat} {log : List Capture} {stack : List Entry} {offset : Int16}
      (hf : p.fetch? a = some (.loopEnd offset, size)) (htarget : offsetTarget a offset = lo)
      (hnone : ∀ e ∈ stack, e.isOfLoop lo = false) : Ends p lo (.running a pos log stack) ⟨pos, log⟩

/-- Inside a loop, an instruction leads to a place inside it, unless it ends an iteration. -/
theorem Program.Within.leads {a b : Nat} {i : Instr} (h : p.Within lo l a) (he : p.Enclosed)
    (hsingle : l.singleByte = false) (hf : p.fetch? a = some (i, size))
    (hi : ∀ offset, i = .loopEnd offset → offsetTarget a offset ≠ lo)
    (hb : p.Starts b) (hflow : b = a + size ∨ b ∈ i.targets a) : p.Within lo l b := by
  have hne : a + 4 ≠ l.after lo := by
    intro heq
    obtain ⟨offset, hend, htarget⟩ := he.ends h.starts h.inside hsingle heq hf
    exact hi offset hend htarget
  exact ⟨hb, he.stays h.starts h.inside hsingle hne ⟨i, size, hf, hflow⟩⟩

/-- The entries of places inside a loop are not of the loop itself. -/
theorem Config.isOfLoop_of_inside (hstack : ∀ e ∈ stack, e.Inside p lo l) :
    ∀ e ∈ stack, e.isOfLoop lo = false := by
  intro e he
  cases e with
  | alternative | capture => rfl
  | loop f =>
    have hlt := (hstack _ he).inside.lt
    exact decide_eq_false fun heq => Nat.ne_of_gt hlt heq

section

variable (hp : p.Sound) (he : p.Enclosed) (hsingle : l.singleByte = false)
include hp he hsingle

namespace Program.Within

variable {a : Nat} {i : Instr}

theorem next (h : p.Within lo l a) (hf : p.fetch? a = some (i, size)) (haccept : i ≠ .accept)
    (hi : ∀ offset, i = .loopEnd offset → offsetTarget a offset ≠ lo) :
    p.Within lo l (a + size) :=
  h.leads he hsingle hf hi (hp.next h.starts hf haccept) (Or.inl rfl)

theorem body {l' : Loop} (h : p.Within lo l a) (hf : p.fetch? a = some (.loop l', size)) :
    p.Within lo l (Loop.body a) := by
  have hbody := h.next hp he hsingle hf nofun nofun
  rw [Program.size_of_loop hf] at hbody
  exact hbody

theorem after {l' : Loop} (h : p.Within lo l a) (hf : p.fetch? a = some (.loop l', size)) :
    p.Within lo l (l'.after a) :=
  h.leads he hsingle hf nofun (hp.loop h.starts hf).2.1 (Or.inr List.mem_cons_self)

end Program.Within

namespace Config

/-! #### Steps inside a loop -/

theorem inside_enterLoop {l' : Loop} (h : p.Within lo l ip)
    (hstack : ∀ e ∈ stack, e.Inside p lo l) (hf : p.fetch? ip = some (.loop l', size)) :
    (enterLoop p input ip pos log stack l').Inside p lo l := by
  have hbody := h.body hp he hsingle hf
  have hafter := h.after hp he hsingle hf
  have hpush (phase : LoopPhase) (count : Nat) :
      ∀ e ∈ .entering ip pos log phase count :: stack, e.Inside p lo l :=
    List.forall_mem_cons.2 ⟨h, hstack⟩
  unfold enterLoop
  extract_lets
  split
  · refine ⟨?_, hpush _ _⟩
    split
    · exact hbody
    · exact hafter
  · split
    · split
      · exact ⟨hafter, hpush _ _⟩
      · exact ⟨hbody, hpush _ _⟩
    · split
      · unfold runByteLoop
        extract_lets
        split
        · exact hstack
        · split
          · exact ⟨hafter, hpush _ _⟩
          · exact ⟨hafter, hstack⟩
      · trivial

theorem inside_execute {i : Instr} (h : p.Within lo l ip)
    (hstack : ∀ e ∈ stack, e.Inside p lo l) (hf : p.fetch? ip = some (i, size))
    (hloop : ∀ o, i ≠ .loopEnd o) (hcapture : ∀ index, i ≠ .captureEnd index) :
    (execute p input ip pos log stack).Inside p lo l := by
  have hnext (hi : i ≠ .accept) : p.Within lo l (ip + size) :=
    h.next hp he hsingle hf hi fun o ho => absurd ho (hloop o)
  unfold execute
  rw [hf]
  cases i with
  | accept => trivial
  | inputStart | inputEnd =>
    dsimp only
    split
    · exact ⟨hnext nofun, hstack⟩
    · exact hstack
  | split o =>
    have htarget := h.leads he hsingle hf nofun (hp.split h.starts hf).2
      (Or.inr List.mem_cons_self)
    exact ⟨hnext nofun, List.forall_mem_cons.2 ⟨htarget, hstack⟩⟩
  | jump o =>
    have htarget := h.leads he hsingle hf nofun (hp.jump h.starts hf).2
      (Or.inr List.mem_cons_self)
    exact ⟨htarget, hstack⟩
  | captureStart => exact ⟨hnext nofun, List.forall_mem_cons.2 ⟨trivial, hstack⟩⟩
  | loop l' => exact inside_enterLoop hp he hsingle h hstack hf
  | loopEnd o => exact absurd rfl (hloop o)
  | captureEnd index => exact absurd rfl (hcapture index)
  | byte | anyByte | bitmap | ranges =>
    dsimp only
    split
    · split
      · exact ⟨hnext nofun, hstack⟩
      · exact hstack
    · exact hstack

theorem inside_keepIteration {l' : Loop} (hip : p.Within lo l f.ip)
    (hstack : ∀ e ∈ stack, e.Inside p lo l) (hf : p.fetch? f.ip = some (.loop l', size)) :
    (keepIteration pos log stack l' f).Inside p lo l := by
  have hbody := hip.body hp he hsingle hf
  have hafter := hip.after hp he hsingle hf
  unfold keepIteration
  extract_lets
  split
  · refine ⟨?_, List.forall_mem_cons.2 ⟨hip, hstack⟩⟩
    split
    · exact hbody
    · exact hafter
  · exact ⟨hafter, hstack⟩

theorem inside_commitIteration {l' : Loop} (hip : p.Within lo l f.ip)
    (hstack : ∀ e ∈ stack, e.Inside p lo l) (hf : p.fetch? f.ip = some (.loop l', size)) :
    (commitIteration input pos log stack l' f).Inside p lo l := by
  have hbody := hip.body hp he hsingle hf
  have hafter := hip.after hp he hsingle hf
  have hwhere (again : Bool) :
      p.Within lo l (if again then Loop.body f.ip else l'.after f.ip) := by
    cases again with
    | true => exact hbody
    | false => exact hafter
  exact ⟨hwhere _, List.forall_mem_cons.2 ⟨hip, hstack⟩⟩

theorem inside_endIteration {a : Nat} (ha : p.Within lo l a)
    (hstack : ∀ e ∈ stack, e.Inside p lo l) :
    (endIteration p input pos log stack a).Inside p lo l := by
  unfold endIteration
  split
  · next f below heq =>
    obtain ⟨hof, hsuffix⟩ := dropWhile_isOfLoop_eq heq
    obtain rfl : f.ip = a := of_decide_eq_true hof
    have hbelow : ∀ e ∈ below, e.Inside p lo l :=
      fun e he => hstack e (hsuffix.subset (List.mem_cons_of_mem _ he))
    split
    · next l' n hf =>
      split
      · exact inside_keepIteration hp he hsingle ha hstack hf
      · exact inside_commitIteration hp he hsingle ha hbelow hf
    · exact hstack
    · trivial
  · exact hstack

theorem inside_backtrack (hstack : ∀ e ∈ stack, e.Inside p lo l) :
    (backtrack p input stack).Inside p lo l := by
  cases stack with
  | nil => trivial
  | cons e below =>
    obtain ⟨htop, hbelow⟩ := List.forall_mem_cons.1 hstack
    cases e with
    | alternative => exact ⟨htop, hbelow⟩
    | capture => exact hbelow
    | loop f =>
      have hput {f' : LoopEntry} (hip : f'.ip = f.ip) :
          ∀ e ∈ .loop f' :: below, e.Inside p lo l :=
        List.forall_mem_cons.2 ⟨by rw [Entry.Inside, hip]; exact htop, hbelow⟩
      unfold backtrack
      dsimp only
      split
      · exact hbelow
      · split
        · trivial
        · next l' n hf =>
          have hbody := htop.body hp he hsingle hf
          have hafter := htop.after hp he hsingle hf
          split
          · unfold retryBoundary
            split
            · exact ⟨hafter, hbelow⟩
            · exact ⟨hbody, hput rfl⟩
          · split
            · unfold retryByteLoop
              split
              · extract_lets
                refine ⟨hafter, ?_⟩
                split
                · exact hbelow
                · exact hput rfl
              · split
                · trivial
                · split
                  · split
                    · exact ⟨hafter, hput rfl⟩
                    · exact hbelow
                  · exact hbelow
            · unfold retryLoop
              extract_lets
              split
              · split
                · exact ⟨hafter, hput rfl⟩
                · exact hbelow
              · split
                · split
                  · split
                    · exact ⟨hafter, hput rfl⟩
                    · exact ⟨hbody, hput rfl⟩
                  · exact hbelow
                · split
                  · exact ⟨hbody, hput rfl⟩
                  · exact hbelow
              · exact hbelow
        · exact hbelow

/-- **Inside a loop, a step is the same whatever the entry of the loop holds**, and leads to places
inside it; unless the iteration is at its end, or has failed, or the step drops the entry. -/
theorem Inside.step (hc : c.Inside p lo l) (hends : ∀ t, ¬c.Ends p lo t) (hne : c ≠ .failing [])
    (below : List Entry) :
    (∃ r : Next, r.Inside p lo l ∧ ∀ g : LoopEntry, g.ip = lo →
      (c.on (.loop g :: below)).step p input = r.on (.loop g :: below)) ∨
    ∃ r : Next, (∀ d, r = .going d → d.stack.length ≤ below.length) ∧ ∀ g : LoopEntry, g.ip = lo →
      (c.on (.loop g :: below)).step p input = r := by
  cases c with
  | failing stack =>
    cases stack with
    | nil => exact absurd rfl hne
    | cons e stack =>
      exact Or.inl ⟨backtrack p input (e :: stack), inside_backtrack hp he hsingle hc,
        fun g _ => backtrack_on p input e stack _⟩
  | running ip pos log stack =>
    obtain ⟨hip, hstack⟩ := hc
    obtain ⟨i, size, hf⟩ := hp.fetch hip.starts
    by_cases hclosing : (∀ o, i ≠ .loopEnd o) ∧ ∀ index, i ≠ .captureEnd index
    · exact Or.inl ⟨execute p input ip pos log stack,
        inside_execute hp he hsingle hip hstack hf hclosing.1 hclosing.2,
        fun g _ => execute_on hf hclosing.1 hclosing.2⟩
    · cases i with
      | captureEnd index =>
        have hnext := hip.next hp he hsingle hf nofun nofun
        have hstep (g : LoopEntry) :
            ((running ip pos log stack).on (.loop g :: below)).step p input =
            closeCapture index (ip + size) pos log (stack ++ .loop g :: below) := by
          rw [on, Config.step, execute, hf]
        have hdrop : ∀ e ∈ dropOpening index stack, e.Inside p lo l := by
          cases stack with
          | nil => exact hstack
          | cons e stack =>
            rw [dropOpening]
            split
            · exact (List.forall_mem_cons.1 hstack).2
            · exact hstack
        rcases closeCapture_on index (ip + size) pos log stack below with ⟨start, h⟩ | h
        · exact Or.inl ⟨.run _ _ _ (dropOpening index stack), ⟨hnext, hdrop⟩,
            fun g _ => (hstep g).trans (h g)⟩
        · exact Or.inl ⟨.fail stack, hstack, fun g _ => (hstep g).trans (h g)⟩
      | loopEnd o =>
        have hstep (g : LoopEntry) :
            ((running ip pos log stack).on (.loop g :: below)).step p input =
            endIteration p input pos log (stack ++ .loop g :: below) (offsetTarget ip o) := by
          rw [on, Config.step, execute, hf]
        have hlo : offsetTarget ip o ≠ lo :=
          fun hlo => hends _ (.intro hf hlo (isOfLoop_of_inside hstack))
        have htarget : p.Within lo l (offsetTarget ip o) := by
          refine hip.leads he hsingle hf ?_ ?_ (Or.inr List.mem_cons_self)
          · rintro _ ⟨⟩
            exact hlo
          · obtain ⟨_, _, hstarts, -⟩ := hp.loopEnd hip.starts hf
            exact hstarts
        by_cases hmem : ∃ e ∈ stack, e.isOfLoop (offsetTarget ip o) = true
        · exact Or.inl ⟨endIteration p input pos log stack (offsetTarget ip o),
            inside_endIteration hp he hsingle htarget hstack,
            fun g _ => (hstep g).trans (endIteration_of_mem p input pos log _ hmem)⟩
        · rcases endIteration_of_not_mem p input pos log below (by simpa using hmem) hlo with
            ⟨f, l', n, hof, hf', h⟩ | h | ⟨r, hr, h⟩
          · rw [← hof] at htarget hf'
            exact Or.inl ⟨keepIteration pos log stack l' f,
              inside_keepIteration hp he hsingle htarget hstack hf',
              fun g hg => (hstep g).trans (h g hg)⟩
          · exact Or.inl ⟨.fail stack, hstack, fun g hg => (hstep g).trans (h g hg)⟩
          · exact Or.inr ⟨r, hr, fun g hg => (hstep g).trans (h g hg)⟩
      | _ => simp at hclosing

end Config

end

end BoundedRegex
