import BoundedRegex.Proofs.Match.Config
import BoundedRegex.Proofs.Pattern.Results

/-!
# Enumerating the results of a piece of code

A piece of code with one exit, run on top of a stack, *offers* a list of points: it reaches the
exit at the first point, and when the machine comes back to the frames it has left, at the second,
and so on, until it fails back to the stack on which it started (`Offers`).  The frames that it
leaves lie on top of that stack, which it never touches.

Pieces of code compose as the lists they offer do: one piece after another is a `flatMap`
(`Offers.bind`), and a piece that is tried when another one has failed is an append
(`Offers.append`).  Nothing has to be known of what runs afterwards, on top of the frames left.
-/

namespace BoundedRegex

/-- `c` comes to `c'` in some steps, with at most `d` frames alive on the way. -/
inductive Steps (p : Program) (input : Array UInt8) (d : Nat) : Config → Config → Prop where
  | refl {c : Config} (h : c.stack.length ≤ d) : Steps p input d c c
  | more {c c₁ c' : Config} (h : c.stack.length ≤ d) (hs : c.step p input = .going c₁)
      (t : Steps p input d c₁ c') : Steps p input d c c'

/-- Whether an entry comes from a piece of code: a loop between two addresses, a capture of some
index. -/
def Entry.Of (a b : Nat) (ids : List UInt8) : Entry → Prop
  | .alternative _ _ _ => True
  | .capture index _ => index ∈ ids
  | .loop f => a ≤ f.ip ∧ f.ip < b

/-- From a configuration, the machine reaches the address `b` at each of some points in turn, with
frames `F` of the kind `ok`, at most `r` of them, on top of the stack `S`; and it fails back to `S`
after the last.  If it leaves no frames there is no other point. -/
inductive Offers (p : Program) (input : Array UInt8) (d b : Nat) (ok : Entry → Prop) (r : Nat)
    (S : List Entry) : Config → List Point → Prop where
  | none {c : Config} (h : Steps p input d c (.failing S)) : Offers p input d b ok r S c []
  | some {c : Config} {s : Point} {F : List Entry} {rest : List Point}
      (h : Steps p input d c (.running b s.pos s.log (F ++ S))) (hok : ∀ e ∈ F, ok e)
      (hr : F.length ≤ r) (hnil : F = [] → rest = [])
      (t : Offers p input d b ok r S (.failing (F ++ S)) rest) :
      Offers p input d b ok r S c (s :: rest)

variable {p : Program} {input : Array UInt8} {d b : Nat} {ok : Entry → Prop} {r : Nat}
  {S : List Entry} {c c' : Config} {points : List Point}

namespace Steps

theorem one (hc : c.stack.length ≤ d) (hs : c.step p input = .going c') (h : c'.stack.length ≤ d) :
    Steps p input d c c' :=
  .more hc hs (.refl h)

theorem trans {c₁ : Config} (h₁ : Steps p input d c c₁) (h₂ : Steps p input d c₁ c') :
    Steps p input d c c' := by
  induction h₁ with
  | refl => exact h₂
  | more h hs _ ih => exact .more h hs (ih h₂)

theorem length_left (h : Steps p input d c c') : c.stack.length ≤ d := by
  cases h with
  | refl h => exact h
  | more h _ _ => exact h

theorem length_right (h : Steps p input d c c') : c'.stack.length ≤ d := by
  induction h with
  | refl h => exact h
  | more _ _ _ ih => exact ih

end Steps

namespace Entry.Of

variable {a₁ b₁ a₂ b₂ : Nat} {ids₁ ids₂ : List UInt8} {e : Entry}

theorem mono (h : e.Of a₁ b₁ ids₁) (ha : a₂ ≤ a₁) (hb : b₁ ≤ b₂) (hids : ids₁ ⊆ ids₂) :
    e.Of a₂ b₂ ids₂ := by
  cases e with
  | alternative => trivial
  | capture => exact hids h
  | loop f => exact ⟨Nat.le_trans ha h.1, Nat.lt_of_lt_of_le h.2 hb⟩

/-- An entry of a piece of code behind a loop's address is not of that loop. -/
theorem not_isOfLoop {a : Nat} (h : e.Of a₁ b₁ ids₁) (ha : a < a₁) : e.isOfLoop a = false := by
  cases e with
  | alternative | capture => rfl
  | loop f =>
    have hne : f.ip ≠ a := Nat.ne_of_gt (Nat.lt_of_lt_of_le ha h.1)
    exact decide_eq_false hne

/-- An entry of a piece of code without a capture does not open it. -/
theorem not_opens {index : UInt8} (h : e.Of a₁ b₁ ids₁) (hi : index ∉ ids₁) :
    e.opens index = false := by
  cases e with
  | alternative | loop => rfl
  | capture i =>
    have hne : i ≠ index := fun heq => hi (heq ▸ h)
    exact decide_eq_false hne

end Entry.Of

namespace Offers

theorem steps (h : Steps p input d c c') (t : Offers p input d b ok r S c' points) :
    Offers p input d b ok r S c points := by
  cases t with
  | none h' => exact .none (h.trans h')
  | some h' hok hr hnil t => exact .some (h.trans h') hok hr hnil t

/-- One step, then the rest. -/
theorem step (hc : c.stack.length ≤ d) (hs : c.step p input = .going c')
    (t : Offers p input d b ok r S c' points) : Offers p input d b ok r S c points := by
  cases t with
  | none h => exact .none (.more hc hs h)
  | some h hok hr hnil t => exact .some (.more hc hs h) hok hr hnil t

/-- At the exit, with no frames left behind. -/
theorem exit (s : Point) (hS : S.length ≤ d) :
    Offers p input d b ok r S (.running b s.pos s.log S) [s] :=
  .some (F := []) (.refl hS) (fun _ h => nomatch h) (Nat.zero_le _) (fun _ => rfl)
    (.none (.refl hS))

theorem mono {ok' : Entry → Prop} {r' : Nat} (hok : ∀ e, ok e → ok' e) (hr : r ≤ r')
    (h : Offers p input d b ok r S c points) : Offers p input d b ok' r' S c points := by
  induction h with
  | none h => exact .none h
  | some h hF hlen hnil _ ih =>
    exact .some h (fun e he => hok e (hF e he)) (Nat.le_trans hlen hr) hnil ih

/-- What runs on top of some frames offers its points, and then what the frames offer. -/
theorem append {F : List Entry} {r' : Nat} {rest : List Point}
    (h : Offers p input d b ok r (F ++ S) c points) (hF : ∀ e ∈ F, ok e)
    (hr : F.length + r ≤ r') (hnil : F = [] → rest = [])
    (t : Offers p input d b ok r' S (.failing (F ++ S)) rest) :
    Offers p input d b ok r' S c (points ++ rest) := by
  induction h with
  | none h => exact t.steps h
  | @some c s G tail h hG hlen hG' _ ih =>
    rw [← List.append_assoc] at h ih
    refine .some h (fun e he => ?_) ?_ (fun hGF => ?_) ih
    · rcases List.mem_append.1 he with he | he
      · exact hG e he
      · exact hF e he
    · rw [List.length_append]; omega
    · obtain ⟨hG₀, hF₀⟩ := List.append_eq_nil_iff.1 hGF
      show tail ++ rest = []
      rw [hG' hG₀, hnil hF₀, List.append_nil]

/-- One piece of code after another. -/
theorem bind {m : Nat} {ok₁ : Entry → Prop} {r₁ q : Nat} {g : Point → List Point}
    (h : Offers p input d m ok₁ r₁ S c points) (hok : ∀ e, ok₁ e → ok e) (hr : r₁ + q ≤ r)
    (hg : ∀ F, (∀ e ∈ F, ok₁ e) → F.length ≤ r₁ → (F ++ S).length ≤ d → ∀ s ∈ points,
      Offers p input d b ok q (F ++ S) (.running m s.pos s.log (F ++ S)) (g s)) :
    Offers p input d b ok r S c (points.flatMap g) := by
  induction h with
  | none h => exact .none h
  | @some c s F rest h hF hlen hnil _ ih =>
    have htail := ih fun G hG hlen hd s hs => hg G hG hlen hd s (List.mem_cons_of_mem _ hs)
    have hhead := hg F hF hlen h.length_right s List.mem_cons_self
    rw [List.flatMap_cons]
    refine steps h (append hhead (fun e he => hok e (hF e he)) (by omega) (fun hF₀ => ?_) htail)
    rw [hnil hF₀, List.flatMap_nil]

end Offers

end BoundedRegex
