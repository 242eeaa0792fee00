import BoundedRegex.Proofs.Match.Safety

/-!
# How much is left to do

A configuration weighs a list of numbers (`Config.weight`): what its entries may yet offer, from the
bottom of the stack up, and then what is left of the code.  Lists are compared at the first place
where they differ (`Lower`), so an entry may change into one that offers less, whatever is done
above it afterwards.

`Config.lighter_step`: a step from a safe configuration leads to a lighter one, with one exception.
Sound code may end an iteration of a loop that commits its iterations when the loop has been left
already (`Config.endsLeft`): its entry is still on the stack, and the code after it has not given it
up.  Such a step counts one more iteration and drops the entries above, and nothing is used up.
-/

namespace BoundedRegex

/-! ### Comparing lists -/

/-- A list is lower than another if it has the smaller number at the first place where they
differ.  Being shorter does not make it lower. -/
inductive Lower : List Nat → List Nat → Prop where
  | head {a b : Nat} {s t : List Nat} (h : a < b) : Lower (a :: s) (b :: t)
  | tail {a : Nat} {s t : List Nat} (h : Lower s t) : Lower (a :: s) (a :: t)

namespace Lower

theorem append_left {s t : List Nat} (h : Lower s t) (u : List Nat) : Lower (u ++ s) (u ++ t) := by
  induction u with
  | nil => exact h
  | cons a u ih => exact .tail ih

theorem append {s t : List Nat} (h : Lower s t) (u v : List Nat) : Lower (s ++ u) (t ++ v) := by
  induction h with
  | head h => exact .head h
  | tail _ ih => exact .tail ih

theorem triple {a b c a' b' c' : Nat} (h : a < a' ∨ a = a' ∧ (b < b' ∨ b = b' ∧ c < c')) :
    Lower [a, b, c] [a', b', c'] := by
  rcases h with h | ⟨rfl, h | ⟨rfl, h⟩⟩
  · exact .head h
  · exact .tail (.head h)
  · exact .tail (.tail (.head h))

/-- There is no end of lower lists in general, but there is among lists of bounded length. -/
theorem acc (n : Nat) (s : List Nat) (hs : s.length ≤ n) :
    Acc (fun a b => a.length ≤ n ∧ Lower a b) s := by
  induction n generalizing s with
  | zero =>
    rw [List.length_eq_zero_iff.1 (Nat.le_zero.1 hs)]
    refine Acc.intro [] ?_
    intro t ht
    cases ht.2
  | succ n ih =>
    cases s with
    | nil =>
      refine Acc.intro [] ?_
      intro t ht
      cases ht.2
    | cons a s =>
      -- First by the head, for any tails; then, under the same head, by the tail.
      induction a using Nat.strongRecOn generalizing s with
      | ind a ihead =>
        have htail := ih s (Nat.le_of_succ_le_succ hs)
        clear hs
        induction htail with
        | intro s _ itail =>
          refine Acc.intro (a :: s) ?_
          rintro _ ⟨hlen, hlower⟩
          cases hlower with
          | head hlt => exact ihead _ hlt _ hlen
          | tail hlower => exact itail _ ⟨Nat.le_of_succ_le_succ hlen, hlower⟩

end Lower

/-! ### Weights -/

/-- What the entry of the loop `l` may yet offer.  A greedy loop iterates, is left, and then replays
fewer and fewer iterations.  Any other loop is left and iterates once more by turns; an iteration
after which it is left again has used up some of the input. -/
def LoopEntry.weight (input : Array UInt8) (l : Loop) (f : LoopEntry) : List Nat :=
  let needed := l.min.toNat - f.count
  let rest := input.size - f.pos
  if l.singleByte then
    [0, if l.greedy then f.count else input.size - (f.start + f.count), 0]
  else
    match f.phase with
    | .iterating => if l.greedy then [2, needed + rest, 0] else [1, needed + 2 * rest + 1, 0]
    | .replaying target =>
      if l.greedy then [1, 2 * target + 1, target - f.count] else [2, target - f.count, 0]
    | .exited => if l.greedy then [1, 2 * f.count, 0] else [1, needed + 2 * rest + 2, 0]
    | .boundary => [1, 0, 0]
    | .stalled | .counter => [0, 0, 0]

/-- The code from an address on. -/
def Program.rest (p : Program) (ip : Nat) : Nat :=
  p.code.length - ip

/-- What an entry may yet offer.  It weighs more than the code to which it leads. -/
def Entry.weight (p : Program) (input : Array UInt8) : Entry → List Nat
  | alternative ip _ _ => [2 * p.rest ip + 1]
  | capture _ _ => []
  | loop f =>
    match p.fetch? f.ip with
    | some (.loop l, _) => (2 * p.rest (l.after f.ip) + 1) :: f.weight input l
    | _ => []

/-- What the entries of a stack may yet offer, from the bottom up. -/
def stackWeight (p : Program) (input : Array UInt8) : List Entry → List Nat
  | [] => []
  | e :: below => stackWeight p input below ++ e.weight p input

namespace Config

/-- How much is left to do. -/
def weight (p : Program) (input : Array UInt8) : Config → List Nat
  | running ip _ _ stack => stackWeight p input stack ++ [2 * p.rest ip]
  | failing stack => stackWeight p input stack ++ [0, stack.length]

end Config

/-- What comes of a step weighs less than `w`. -/
def Next.Lighter (p : Program) (input : Array UInt8) (w : List Nat) : Next → Prop
  | going c => Lower (c.weight p input) w
  | accepted _ _ stack => Lower ((Config.failing stack).weight p input) w
  | exhausted | malformed => True

/-- Whether a loop is in an iteration. -/
def LoopPhase.isUnderway : LoopPhase → Bool
  | iterating | replaying _ => true
  | _ => false

/-- Whether a configuration is about to end an iteration of a loop that commits its iterations and
that has been left. -/
def Config.endsLeft (p : Program) : Config → Bool
  | running ip _ _ stack =>
    match p.fetch? ip with
    | some (.loopEnd offset, _) =>
      match p.fetch? (offsetTarget ip offset),
        stack.dropWhile (fun e => !e.isOfLoop (offsetTarget ip offset)) with
      | some (.loop l, _), .loop f :: _ => !l.keepsFrames && !f.phase.isUnderway
      | _, _ => false
    | _ => false
  | failing _ => false

section

variable {p : Program} {input : Array UInt8} {stack below : List Entry} {l : Loop} {n : Nat}
  {f g : LoopEntry}

theorem LoopEntry.length_weight (input : Array UInt8) (l : Loop) (f : LoopEntry) :
    (f.weight input l).length = 3 := by
  unfold weight
  split
  · rfl
  · split <;> first | rfl | (split <;> rfl)

theorem Entry.weight_loop (hf : p.fetch? f.ip = some (.loop l, n)) :
    (Entry.loop f).weight p input = (2 * p.rest (l.after f.ip) + 1) :: f.weight input l := by
  rw [weight, hf]

theorem Entry.length_weight_le (p : Program) (input : Array UInt8) (e : Entry) :
    (e.weight p input).length ≤ 4 := by
  cases e with
  | alternative => exact Nat.le_add_left 1 3
  | capture => exact Nat.zero_le 4
  | loop f =>
    rw [weight]
    split
    · next l _ _ =>
      have hlen := f.length_weight input l
      rw [List.length_cons]
      omega
    · exact Nat.zero_le 4

theorem length_stackWeight_le (p : Program) (input : Array UInt8) (stack : List Entry) :
    (stackWeight p input stack).length ≤ 4 * stack.length := by
  induction stack with
  | nil => exact Nat.le_refl 0
  | cons e below ih =>
    have he := e.length_weight_le p input
    simp only [stackWeight, List.length_append, List.length_cons]
    omega

theorem Config.length_weight_le (p : Program) (input : Array UInt8) (c : Config) :
    (c.weight p input).length ≤ 4 * c.stack.length + 2 := by
  have hstack := length_stackWeight_le p input c.stack
  cases c with
  | running ip pos log stack =>
    simp only [weight, List.length_append, List.length_cons, List.length_nil]
    exact Nat.add_le_add hstack (Nat.le_succ 1)
  | failing stack =>
    simp only [weight, List.length_append, List.length_cons, List.length_nil]
    exact Nat.add_le_add hstack (Nat.le_refl 2)

/-- Entries above others add to what the others weigh. -/
theorem stackWeight_of_suffix (p : Program) (input : Array UInt8) {S : List Entry}
    (h : S <:+ stack) :
    ∃ w, stackWeight p input stack = stackWeight p input S ++ w := by
  obtain ⟨above, rfl⟩ := h
  induction above with
  | nil => exact ⟨[], (List.append_nil _).symm⟩
  | cons e above ih =>
    obtain ⟨w, hw⟩ := ih
    refine ⟨w ++ e.weight p input, ?_⟩
    rw [List.cons_append, stackWeight, hw, List.append_assoc]

/-- The start of a capture weighs nothing. -/
theorem stackWeight_dropOpening (p : Program) (input : Array UInt8) (index : UInt8)
    (stack : List Entry) :
    stackWeight p input (Config.dropOpening index stack) = stackWeight p input stack := by
  cases stack with
  | nil => rfl
  | cons e below =>
    rw [Config.dropOpening]
    split
    · next ho =>
      cases e with
      | capture => exact (List.append_nil _).symm
      | alternative => cases ho
      | loop => cases ho
    · rfl

end

/-! ### Steps -/

namespace Config

variable {p : Program} {input : Array UInt8} {start ip pos : Nat} {log : List Capture}
  {stack below : List Entry} {l : Loop} {n : Nat} {f g : LoopEntry}

/-! #### Going on -/

section

variable (hip : ip < p.code.length)
include hip

/-- Giving up the path. -/
theorem lighter_fail (pos : Nat) (log : List Capture) :
    (Next.fail stack).Lighter p input ((running ip pos log stack).weight p input) :=
  Lower.append_left (.head (by unfold Program.rest; omega)) _

/-- Going forward in the code. -/
theorem lighter_run {next : Nat} (hnext : ip < next) (pos pos' : Nat) (log log' : List Capture) :
    (Next.run next pos' log' stack).Lighter p input ((running ip pos log stack).weight p input) :=
  Lower.append_left (.head (by unfold Program.rest; omega)) _

/-- Going on anywhere, with an entry that leads forward in the code. -/
theorem lighter_push {e : Entry} {target : Nat} {w : List Nat} (htarget : ip < target)
    (he : e.weight p input = (2 * p.rest target + 1) :: w) (pos next pos' : Nat)
    (log log' : List Capture) :
    (Next.run next pos' log' (e :: stack)).Lighter p input
      ((running ip pos log stack).weight p input) := by
  show Lower ((stackWeight p input stack ++ e.weight p input) ++ _) _
  rw [he, List.append_assoc]
  exact Lower.append_left (.head (by unfold Program.rest; omega)) _

theorem lighter_closeCapture {index : UInt8} {next : Nat} (hnext : ip < next) :
    (closeCapture index next pos log stack).Lighter p input
      ((running ip pos log stack).weight p input) := by
  unfold closeCapture
  split
  · show Lower (stackWeight p input (dropOpening index stack) ++ _) _
    rw [stackWeight_dropOpening]
    exact lighter_run hip hnext pos pos log log
  · exact lighter_fail hip pos log

theorem lighter_enter (hf : p.fetch? ip = some (.loop l, n)) (phase : LoopPhase) (count : Nat)
    (next pos' : Nat) (log' : List Capture) :
    (Next.run next pos' log' (.entering ip pos log phase count :: stack)).Lighter p input
      ((running ip pos log stack).weight p input) :=
  lighter_push hip (l.lt_after ip) (Entry.weight_loop hf) ..

theorem lighter_runByteLoop (hf : p.fetch? ip = some (.loop l, n)) (body : Instr) :
    (runByteLoop input ip pos log stack l body).Lighter p input
      ((running ip pos log stack).weight p input) := by
  unfold runByteLoop
  extract_lets rest limit count mayRetry
  split
  · exact lighter_fail hip pos log
  · split
    · exact lighter_enter hip hf ..
    · exact lighter_run hip (l.lt_after ip) ..

theorem lighter_enterLoop (hf : p.fetch? ip = some (.loop l, n)) :
    (enterLoop p input ip pos log stack l).Lighter p input
      ((running ip pos log stack).weight p input) := by
  unfold enterLoop
  extract_lets body after phase
  split
  · exact lighter_enter hip hf ..
  · split
    · split
      · exact lighter_enter hip hf ..
      · exact lighter_enter hip hf ..
    · cases p.fetch? body with
      | none => trivial
      | some x => exact lighter_runByteLoop hip hf x.1

/-- An iteration of a loop that keeps frames ends before the code that follows the loop. -/
theorem lighter_keepIteration (hf : p.fetch? f.ip = some (.loop l, n)) (hlt : ip < l.after f.ip) :
    (keepIteration pos log stack l f).Lighter p input
      ((running ip pos log stack).weight p input) := by
  unfold keepIteration
  extract_lets count needed phase
  split
  · exact lighter_push hip hlt
      (Entry.weight_loop (f := { f with phase, pos, log, start := pos, startLog := log, count }) hf)
      pos _ pos log log
  · exact lighter_run hip hlt pos pos log log

end

/-! #### Ending an iteration that is committed -/

section

variable (hsingle : l.singleByte = false)
include hsingle

/-- The entry of a loop that goes on iterating. -/
theorem lower_again (hle : f.pos ≤ pos) (hpos : pos ≤ input.size)
    (hmore : (f.phase = .iterating ∧ (f.count + 1 < l.min.toNat ∨ l.greedy = true ∧ f.pos < pos)) ∨
      ∃ target, f.phase = .replaying target ∧ f.count + 1 < target) :
    Lower ({ f with count := f.count + 1, pos, log }.weight input l) (f.weight input l) := by
  rcases hmore with ⟨hphase, hmore⟩ | ⟨target, hphase, hmore⟩
  · simp only [LoopEntry.weight, hsingle, hphase, Bool.false_eq_true, if_false]
    split
    · exact .triple (by omega)
    · next hlazy =>
      -- Only the iterations that are needed make a loop go on that is not greedy.
      have hmore : f.count + 1 < l.min.toNat := hmore.resolve_right fun h => hlazy h.1
      exact .triple (by omega)
  · simp only [LoopEntry.weight, hsingle, hphase, Bool.false_eq_true, if_false]
    split
    · exact .triple (by omega)
    · exact .triple (by omega)

/-- The entry of a loop that is left, after progress or for good. -/
theorem lower_leave (hpos : pos ≤ input.size) (hunderway : f.phase.isUnderway = true)
    (hreplaying : ∀ target, f.phase = .replaying target → f.count < target) {phase : LoopPhase}
    (hphase : phase = .exited ∧ (l.greedy = true ∨ f.pos < pos) ∨ phase = .stalled) :
    Lower ({ f with phase, count := f.count + 1, pos, log }.weight input l)
      (f.weight input l) := by
  rcases hphase with ⟨rfl, hleft⟩ | rfl
  · cases h : f.phase with
    | iterating =>
      simp only [LoopEntry.weight, hsingle, h, Bool.false_eq_true, if_false]
      split
      · exact .triple (by omega)
      · next hlazy =>
        have hprogress : f.pos < pos := hleft.resolve_left hlazy
        exact .triple (by omega)
    | replaying target =>
      have hlt := hreplaying target h
      simp only [LoopEntry.weight, hsingle, h, Bool.false_eq_true, if_false]
      split
      · exact .triple (by omega)
      · exact .triple (by omega)
    | boundary | counter | exited | stalled =>
      rw [h] at hunderway
      cases hunderway
  · cases h : f.phase with
    | iterating | replaying =>
      simp only [LoopEntry.weight, hsingle, h, Bool.false_eq_true, if_false]
      split
      · exact .triple (by omega)
      · exact .triple (by omega)
    | boundary | counter | exited | stalled =>
      rw [h] at hunderway
      cases hunderway

/-- The entry of a loop that is in an iteration offers less when the iteration is complete. -/
theorem lower_commitIteration (ho : f.Orderly input start pos l) (hpos : pos ≤ input.size)
    (hunderway : f.phase.isUnderway = true) (log : List Capture) (below : List Entry) :
    ∃ next g, commitIteration input pos log below l f = .run next pos log (.loop g :: below) ∧
      g.ip = f.ip ∧ Lower (g.weight input l) (f.weight input l) := by
  unfold commitIteration
  extract_lets progressed count again phase
  refine ⟨_, _, rfl, rfl, ?_⟩
  -- Progress uses up some of the input.
  have hprogressed (h : progressed = true) : f.pos < pos := by
    have hne : pos ≠ f.pos := of_decide_eq_true h
    have hle := ho.pos_le
    omega
  by_cases hagain : again = true
  · have hphase : phase = f.phase := if_pos hagain
    rw [hphase]
    refine lower_again hsingle ho.pos_le hpos ?_
    cases h : f.phase with
    | iterating =>
      simp only [again, h, Bool.or_eq_true, decide_eq_true_eq, Bool.and_eq_true] at hagain
      exact Or.inl ⟨rfl, hagain.imp_right fun hr => ⟨hr.1.1.1, hprogressed hr.1.1.2⟩⟩
    | replaying target =>
      simp only [again, h, decide_eq_true_eq] at hagain
      exact Or.inr ⟨target, rfl, hagain⟩
    | boundary | counter | exited | stalled => simp [again, h] at hagain
  · have hphase : phase = if progressed || l.greedy then .exited else .stalled := if_neg hagain
    refine lower_leave hsingle hpos hunderway (fun target ht => ho.replaying ht) ?_
    rw [hphase]
    split
    · next h =>
      rcases Bool.or_eq_true_iff.1 h with h | h
      · exact Or.inl ⟨rfl, Or.inr (hprogressed h)⟩
      · exact Or.inl ⟨rfl, Or.inl h⟩
    · exact Or.inr rfl

end

theorem lighter_endIteration (hp : p.Sound) (hip : p.Starts ip)
    (hsafe : Placed p input start pos log stack) {offset : Int16}
    (hf : p.fetch? ip = some (.loopEnd offset, n))
    (hleft : (running ip pos log stack).endsLeft p = false) :
    (endIteration p input pos log stack (offsetTarget ip offset)).Lighter p input
      ((running ip pos log stack).weight p input) := by
  obtain ⟨l, m, htarget, hl, hsingle, hafter⟩ := hp.loopEnd hip hf
  rw [endsLeft, hf] at hleft
  dsimp only at hleft
  rw [hl] at hleft
  unfold endIteration
  split
  · next f below hdrop =>
    rw [hdrop] at hleft
    obtain ⟨hof, hsuffix⟩ := dropWhile_isOfLoop_eq hdrop
    have hip' : f.ip = offsetTarget ip offset := of_decide_eq_true hof
    rw [hl]
    dsimp only at hleft ⊢
    rw [← hip'] at hl hafter
    split
    · exact lighter_keepIteration hip.lt hl (by omega)
    · next hkeeps =>
      have hunderway : f.phase.isUnderway = true := by simpa [hkeeps] using hleft
      obtain ⟨l', m', -, hl', ho⟩ := (hsafe.stack.of_suffix hsuffix).1
      cases hl.symm.trans hl'
      obtain ⟨next, g, hcommit, hg, hlower⟩ :=
        lower_commitIteration hsingle ho hsafe.le_size hunderway log below
      -- What the entries above the loop's weighed is gone, but that comes behind the loop's.
      obtain ⟨w, hw⟩ := stackWeight_of_suffix p input hsuffix
      rw [hcommit, weight, hw, stackWeight, Entry.weight_loop hl]
      show Lower ((stackWeight p input below ++ (Entry.loop g).weight p input) ++ _) _
      rw [Entry.weight_loop (hg ▸ hl), hg, List.append_assoc, List.append_assoc, List.append_assoc]
      exact Lower.append_left (.tail (hlower.append _ _)) _
  · exact lighter_fail hip.lt pos log

theorem lighter_execute (hp : p.Sound) (hip : p.Starts ip)
    (hsafe : Placed p input start pos log stack)
    (hleft : (running ip pos log stack).endsLeft p = false) :
    (execute p input ip pos log stack).Lighter p input
      ((running ip pos log stack).weight p input) := by
  obtain ⟨i, size, hf⟩ := hp.fetch hip
  have hlt := hip.lt
  have hfail : (Next.fail stack).Lighter p input ((running ip pos log stack).weight p input) :=
    lighter_fail hlt pos log
  have hnext : ip < ip + size := by
    have hsize := Program.length_of_fetch? hf
    omega
  unfold execute
  rw [hf]
  cases i with
  | accept => exact hfail
  | inputStart | inputEnd =>
    dsimp only
    split
    · exact lighter_run hlt hnext pos pos log log
    · exact hfail
  | split offset => exact lighter_push hlt (hp.split hip hf).1 rfl ..
  | jump offset => exact lighter_run hlt (hp.jump hip hf).1 pos pos log log
  | captureStart index =>
    show Lower ((stackWeight p input stack ++ []) ++ _) _
    rw [List.append_nil]
    exact lighter_run hlt hnext pos pos log log
  | captureEnd index => exact lighter_closeCapture hlt hnext
  | loop l => exact lighter_enterLoop hlt hf
  | loopEnd offset => exact lighter_endIteration hp hip hsafe hf hleft
  | anyByte | byte | bitmap | ranges =>
    dsimp only
    split
    · split
      · exact lighter_run hlt hnext pos _ log log
      · exact hfail
    · exact hfail

/-! #### Going back -/

section

variable (hf : p.fetch? f.ip = some (.loop l, n))
include hf

/-- Without the entry of a loop. -/
theorem lighter_drop :
    (Next.fail below).Lighter p input ((failing (.loop f :: below)).weight p input) := by
  rw [weight, stackWeight, Entry.weight_loop hf, List.append_assoc]
  exact Lower.append_left (.head (Nat.succ_pos _)) _

/-- Behind the loop, without its entry. -/
theorem lighter_resumeAfter (pos : Nat) (log : List Capture) :
    (Next.run (l.after f.ip) pos log below).Lighter p input
      ((failing (.loop f :: below)).weight p input) := by
  rw [weight, stackWeight, Entry.weight_loop hf, List.append_assoc]
  exact Lower.append_left (.head (Nat.lt_succ_self _)) _

/-- Anywhere, with an entry that offers less. -/
theorem lighter_resume (hg : g.ip = f.ip) (hlower : Lower (g.weight input l) (f.weight input l))
    (ip pos : Nat) (log : List Capture) :
    (Next.run ip pos log (.loop g :: below)).Lighter p input
      ((failing (.loop f :: below)).weight p input) := by
  show Lower ((stackWeight p input below ++ (Entry.loop g).weight p input) ++ _) _
  rw [weight, stackWeight, Entry.weight_loop hf, Entry.weight_loop (hg ▸ hf), hg, List.append_assoc,
    List.append_assoc]
  exact Lower.append_left (.tail (hlower.append _ _)) _

theorem lighter_retryByteLoop (ho : f.Orderly input start input.size l)
    (hsingle : l.singleByte = true) :
    (retryByteLoop p input below l f).Lighter p input
      ((failing (.loop f :: below)).weight p input) := by
  obtain ⟨-, -, -, hmin⟩ := ho.bytes hsingle
  unfold retryByteLoop
  split
  · next hgreedy =>
    have hlt := hmin hgreedy
    extract_lets count
    split
    · exact lighter_resumeAfter hf ..
    · refine lighter_resume hf (g := { f with count }) rfl ?_ ..
      simp only [LoopEntry.weight, hsingle, hgreedy, if_true]
      exact .triple (by omega)
  · next hlazy =>
    cases p.fetch? (Loop.body f.ip) with
    | none => trivial
    | some x =>
      dsimp only
      cases hb : input[f.start + f.count]? with
      | none => exact lighter_drop hf
      | some b =>
        have hlt : f.start + f.count < input.size := (Array.getElem?_eq_some_iff.1 hb).1
        dsimp only
        split
        · refine lighter_resume hf (g := { f with count := f.count + 1 }) rfl ?_ ..
          simp only [LoopEntry.weight, hsingle, if_true, if_neg hlazy]
          exact .triple (by omega)
        · exact lighter_drop hf

theorem lighter_retryLoop (hsingle : l.singleByte = false) :
    (retryLoop input below l f).Lighter p input
      ((failing (.loop f :: below)).weight p input) := by
  unfold retryLoop
  extract_lets body after resume target fresh
  split
  · next hphase =>
    split
    · next h =>
      refine lighter_resume hf (g := { f with phase := .exited }) rfl ?_ ..
      simp only [LoopEntry.weight, hsingle, hphase, h.1, Bool.false_eq_true, if_false, if_true]
      exact .triple (by omega)
    · exact lighter_drop hf
  · next hphase =>
    split
    · next hgreedy =>
      split
      · split
        · refine lighter_resume hf (g := fresh) rfl ?_ ..
          simp only [LoopEntry.weight, fresh, hsingle, hphase, hgreedy, Bool.false_eq_true,
            if_false, if_true]
          exact .triple (by omega)
        · refine lighter_resume hf (g := { fresh with phase := .replaying target }) rfl ?_ ..
          simp only [LoopEntry.weight, fresh, hsingle, hphase, hgreedy, Bool.false_eq_true,
            if_false, if_true]
          exact .triple (by omega)
      · exact lighter_drop hf
    · next hlazy =>
      split
      · refine lighter_resume hf (g := { f with phase := .iterating }) rfl ?_ ..
        simp only [LoopEntry.weight, hsingle, hphase, hlazy, Bool.false_eq_true, if_false]
        exact .triple (by omega)
      · exact lighter_drop hf
  · exact lighter_drop hf

theorem lighter_retryBoundary (hsingle : l.singleByte = false) (hphase : f.phase = .boundary) :
    (retryBoundary below l f).Lighter p input
      ((failing (.loop f :: below)).weight p input) := by
  unfold retryBoundary
  split
  · exact lighter_resumeAfter hf ..
  · refine lighter_resume hf (g := { f with phase := .counter }) rfl ?_ ..
    simp only [LoopEntry.weight, hsingle, hphase, Bool.false_eq_true, if_false]
    exact .triple (by omega)

end

theorem lighter_backtrack (hstack : StackSafe p input start input.size stack) :
    (backtrack p input stack).Lighter p input ((failing stack).weight p input) := by
  match stack with
  | [] => trivial
  | .alternative ip pos log :: below =>
    rw [weight, stackWeight, List.append_assoc]
    exact Lower.append_left (.head (Nat.lt_succ_self _)) _
  | .capture index pos :: below =>
    rw [weight, stackWeight, List.append_assoc]
    exact Lower.append_left (.tail (.head (Nat.lt_succ_self _))) _
  | .loop f :: below =>
    obtain ⟨⟨l, n, hip, hf, ho⟩, -⟩ := hstack
    unfold backtrack
    dsimp only
    rw [hf]
    split
    · exact lighter_drop hf
    · dsimp only
      split
      · next hphase =>
        -- The entry of a single-byte loop has no boundary.
        have hsingle : l.singleByte = false := by
          cases hl : l.singleByte with
          | true => cases hphase.symm.trans (ho.bytes hl).1
          | false => rfl
        exact lighter_retryBoundary hf hsingle hphase
      · split
        · next hsingle => exact lighter_retryByteLoop hf ho hsingle
        · next hsingle => exact lighter_retryLoop hf (Bool.eq_false_iff.2 hsingle)

/-- **A step leads to a lighter configuration**, unless it ends an iteration of a loop that has been
left. -/
theorem lighter_step (hp : p.Sound) {c : Config} (hc : c.Safe p input start)
    (hleft : c.endsLeft p = false) : (c.step p input).Lighter p input (c.weight p input) := by
  cases c with
  | running ip pos log stack => exact lighter_execute hp hc.1 hc.2 hleft
  | failing stack => exact lighter_backtrack hc

end Config

end BoundedRegex
