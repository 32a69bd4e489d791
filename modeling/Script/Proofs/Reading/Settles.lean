/-
Statements among tokens that end with a semicolon, in a run within a
longer one. Up to its end a statement stays in front of a semicolon, and
it ends by taking one. So the short run is never cut off: both runs read
the same statement or give up for the same reason, and behind it both go
on at the same place. Round after round, the long run does what the short
one does, and then goes on with what is behind.
-/
import Script.Proofs.Reading.Cut
import Script.Proofs.Reading.Stays

namespace Script.Tree

open Script.Action

variable {α β : Type} {x : Context} {u : List Token} {c d : Cursor}

/-- Reading that is the same in both runs and ends among the tokens or
right behind them. -/
def Settles (x : Context) (u : List Token) (p : Parse α) (c : Cursor) :
    Prop :=
  match p c with
  | .ok a d => p (c.within x) = .ok a (d.within x) ∧ Settled u d
  | .error e d =>
      Lost u d ∨ (p (c.within x) = .error e (d.within x) ∧ Stuck u d)

theorem Among.sees (hc : Among u c) : x.Sees c := .of_ne_nil hc.ne_nil

namespace Settles

variable {Q : α → Cursor → Prop} {P : α → Prop} {p : Parse α}
  {f : α → Parse β}

theorem of_eq {q : Parse β} {p : Parse β} (hshort : p c = q d)
    (hlong : p (c.within x) = q (d.within x)) (h : Settles x u q d) :
    Settles x u p c := by
  unfold Settles at h ⊢
  rwa [hshort, hlong]

/-- Reading that stays in front of a semicolon is not cut off. -/
theorem of_stays (hmeets : Meets x (p (c.within x)) (p c))
    (hstays : Stays u Q p c) : Settles x u p c := by
  have step (hsees : x.Sees (finalCursor (p c))) :
      p (c.within x) = x.around (p c) :=
    hmeets.resolve_right fun hoff => hoff.cut hsees
  unfold Settles
  cases hrun : p c with
  | ok a d =>
      rw [hrun] at step
      obtain ⟨hd, -⟩ := hstays.of_ok hrun
      exact ⟨step hd.sees, hd.toSettled⟩
  | error e d =>
      rw [hrun] at step
      refine (hstays.of_error hrun).imp_right fun hd => ⟨step ?_, hd⟩
      exact .of_ne_nil hd.ne_nil

theorem bind (hp : Follows x True P p) (hknows : x.Knows c)
    (hstays : Stays u Q p c)
    (hf : ∀ a d, Later c d → x.Knows d → Among u d → Q a d →
      Settles x u (f a) d) : Settles x u (p >>= f) c := by
  have hsettles := of_stays (hp.meets trivial hknows) hstays
  unfold Settles at hsettles
  cases hrun : p c with
  | error e d =>
      rw [hrun] at hsettles
      unfold Settles
      rw [bind_of_error hrun]
      refine hsettles.imp_right fun ⟨hlong, hd⟩ => ⟨?_, hd⟩
      rw [bind_of_error hlong]
  | ok a d =>
      rw [hrun] at hsettles
      obtain ⟨hlong, -⟩ := hsettles
      obtain ⟨hd, ha⟩ := hstays.of_ok hrun
      have hlater := hp.careful.later_ok hrun
      obtain ⟨hspanned, -⟩ := (hp.builds trivial).of_ok hknows.spanned hrun
      exact .of_eq (bind_of_ok hrun f) (bind_of_ok hlong f)
        (hf a d hlater (hknows.later hlater hspanned) hd ha)

theorem get_bind {f : Cursor → Parse β} (h : Settles x u (f c) c)
    (hsame : f (c.within x) = f c) : Settles x u (get >>= f) c :=
  .of_eq (q := f c) rfl (by rw [Tree.get_bind, hsame]) h

theorem kind_bind {f : Token.Kind → Parse β} (hc : Among u c)
    (h : Settles x u (f c.kind) c) : Settles x u (Parse.kind >>= f) c :=
  .of_eq (q := f c.kind) rfl
    (by rw [Tree.kind_bind, Cursor.kind_within hc.sees]) h

theorem skip_bind {f : Unit → Parse β} (hc : Among u c)
    (hf : Settles x u (f ()) c.advance) :
    Settles x u (Parse.skip >>= f) c := by
  refine .of_eq (q := f ()) (d := c.advance) rfl ?_ hf
  rw [Tree.skip_bind, Cursor.advance_within hc.sees]

theorem eat_bind {f : Bool → Parse β} {k : Token.Kind} (hc : Among u c)
    (ht : c.kind = k → Settles x u (f true) c.advance)
    (hf : c.kind ≠ k → Settles x u (f false) c) :
    Settles x u (Parse.eat k >>= f) c := by
  have hkind := Cursor.kind_within (x := x) hc.sees
  by_cases hk : c.kind = k
  · refine .of_eq (bind_eq (eat_eq hk)) ?_ (ht hk)
    rw [bind_eq (eat_eq (hkind.trans hk)), Cursor.advance_within hc.sees]
  · exact .of_eq (bind_eq (eat_eq_false hk))
      (bind_eq (eat_eq_false (hkind ▸ hk))) (hf hk)

-- ========================================================== statements

/-- The end of a statement: behind the semicolon nothing more is read. -/
theorem ending (hu : Plain u) (hknows : x.Knows c) (hc : Among u c)
    (behind : String) (start : Span) (g : Span → Stmt) :
    Settles x u (do
      terminator behind
      return g (← Parse.spanFrom start)) c := by
  by_cases hk : c.kind = .punct .semicolon
  · have taken {c : Cursor} (hk : c.kind = .punct .semicolon) :
        terminator behind c = .ok () c.advance := by
      unfold terminator
      rw [bind_eq (eat_eq hk)]
      rfl
    refine .of_eq (q := do return g (← Parse.spanFrom start))
      (d := c.advance) (bind_eq (taken hk)) ?_ ⟨rfl, hc.settled_advance⟩
    rw [bind_eq (taken ((Cursor.kind_within hc.sees).trans hk)),
      Cursor.advance_within hc.sees]
  · exact bind (Follows.terminator behind) hknows
      (.terminator hu hc hk behind) fun _ _ _ _ _ h => h.elim

/-- A value and the end of the statement behind it. -/
theorem valued (hu : Plain u) (hknows : x.Knows c)
    {p : Parse α} (hp : Follows x True P p) (hstays : Stays u Q p c)
    (behind : String) (start : Span) (g : α → Span → Stmt) :
    Settles x u (p >>= fun a => do
      terminator behind
      return g a (← Parse.spanFrom start)) c :=
  bind hp hknows hstays fun a _ _ hknows hd _ =>
    ending hu hknows hd behind start (g a)

theorem declaration (hu : Plain u) (hknows : x.Knows c) (hc : Among u c)
    (n : Nat) (start : Span) : Settles x u (declaration n start) c := by
  unfold Tree.declaration
  refine bind (Follows.identifier _) hknows (.identifier hu hc _)
    fun name d _ hknows hd _ => eat_bind hd (fun hk => ?_) fun _ => ?_
  · exact valued hu hknows.advance (Follows.something n)
      (.something hu n (hd.advance hu (by simp [hk]))) _ start
      fun init span => .declare span name init
  · exact ending hu hknows hd _ start (.declare · name none)

theorem returnStatement (hu : Plain u) (hfree : ∀ s, x.Free s)
    (hknows : x.Knows c) (hc : Among u c) (n : Nat) {start : Span}
    (hstart : Behind u c start) :
    Settles x u (returnStatement n false start) c := by
  refine bind (Follows.blame (by simp) fun _ => hfree start) hknows
    (Q := fun _ _ => True) ⟨hc.blame hstart .returnOutside, trivial⟩
    fun _ d _ hknows hd _ => kind_bind hd ?_
  split
  case isTrue =>
      exact ending hu hknows hd "return statement" start (.giveBack · none)
  case isFalse =>
      exact valued hu hknows (Follows.something n) (.something hu n hd)
        "return statement" start fun value span => .giveBack span value

/-- Without braces, neither a condition nor a loop is read. -/
theorem condition (hu : Plain u) (hknows : x.Knows c) (hc : Among u c)
    (n : Nat) (inside : Bool) (f : Expr → Block → Parse Stmt) :
    Settles x u
      (Tree.expression n >>= fun cond => Tree.block n inside >>= f cond)
      c :=
  bind (Follows.expression n) hknows (.expression hu n hc)
    fun _ _ _ hknows hd _ => bind (Follows.block n inside) hknows
      (.block hu hd n inside) fun _ _ _ _ _ h => h.elim

/-- A semicolon alone is a statement. -/
theorem empty (hc : Among u c) (start : Span) :
    Settles x u (do
      Parse.skip
      modify (·.note .emptyStatement start)
      return .empty (← Parse.spanFrom start) : Parse Stmt) c := by
  have hsettled := hc.settled_advance
  refine ⟨?_, hsettled.rest, hsettled.blamed, hsettled.fresh⟩
  rw [Tree.skip_bind, Cursor.advance_within hc.sees]
  show EStateM.Result.ok _ ((c.advance.within x).note _ _) = _
  rw [Cursor.note_within]
  rfl

/-- A statement is read or given up in the same way in both runs. -/
theorem statement (hu : Plain u) (hfree : ∀ s, x.Free s)
    (hknows : x.Knows c) (hc : Among u c) (n : Nat) :
    Settles x u (statement n false) c := by
  have hsees := hc.sees (x := x)
  obtain ⟨-, hbrace, -⟩ := hc.kind_ne hu
  unfold Tree.statement
  refine get_bind ?_ ?_
  · generalize hk : c.kind = k at hbrace
    have hskip (h : k ≠ .punct .semicolon) := hc.advance hu (hk ▸ h)
    dsimp only
    split
    case h_1 =>
        exact skip_bind hc
          (declaration hu hknows.advance (hskip (by simp)) n c.here)
    case h_2 =>
        have hfollows := Follows.function (x := x) (C := True) n c.here
        exact skip_bind hc (of_stays (hfollows.meets trivial hknows.advance)
          (.function hu n c.here (hskip (by simp))))
    case h_3 =>
        refine .of_eq branch_eq ?_
          (condition hu hknows.advance (hskip (by simp)) n false _)
        rw [branch_eq, Cursor.here_within hsees, Cursor.advance_within hsees]
    case h_4 =>
        exact skip_bind hc
          (condition hu hknows.advance (hskip (by simp)) n false _)
    case h_5 =>
        exact skip_bind hc (returnStatement hu hfree hknows.advance
          (hskip (by simp)) n (hc.behind_here hu))
    case h_6 =>
        exact skip_bind hc (valued hu hknows.advance (Follows.expression n)
          (.expression hu n (hskip (by simp))) "print statement" c.here
          fun value span => .print span value)
    case h_7 => exact absurd rfl hbrace
    case h_8 => exact empty hc c.here
    case h_9 =>
        exact valued hu hknows (Follows.expression n)
          (.expression hu n hc) "expression" c.here
          fun value span => .expression span value
  · simp only [Cursor.kind_within hsees, Cursor.here_within hsees]

end Settles

-- =============================================================== rounds

/-- A round among the tokens is the same in both runs. -/
theorem Cursor.round_settles (hu : Plain u) (hfree : ∀ s, x.Free s)
    (hknows : x.Knows c) (hc : Among u c) (n : Nat) :
    Lost u (c.round (statement n false)).behind
      ∨ ((c.within x).round (statement n false)
          = (c.round (statement n false)).within x
        ∧ Settled u (c.round (statement n false)).behind) := by
  have hsettles := Settles.statement hu hfree hknows hc n
  unfold Settles at hsettles
  unfold Cursor.round
  cases hrun : statement n false c with
  | ok s d =>
      rw [hrun] at hsettles
      obtain ⟨hlong, hd⟩ := hsettles
      rw [hlong]
      exact .inr ⟨rfl, hd⟩
  | error e d =>
      rw [hrun] at hsettles
      rcases hsettles with ⟨hn, hdeep⟩ | ⟨hlong, hd⟩
      · exact .inl ⟨hn, (Later.skipStatement d).isDeep hdeep⟩
      · refine .inr ⟨?_, hd.skipStatement hu⟩
        obtain ⟨t, ht, hk⟩ := hd.exists_semicolon hu
        have hskip := Cursor.skipStatement_within_of_exists (x := x)
          ⟨t, ht, .inl hk⟩
        rw [hlong]
        exact congrArg (Round.mk none) hskip

/-- The long run goes through the rounds of the short one, and then goes
on from where that ended. -/
theorem Rounds.settle {rs : List Round} (hu : Plain u)
    (hfree : ∀ s, x.Free s) (h : Rounds Cursor.roundOfProgram? c rs d)
    (hknows : x.Knows c) (hc : Settled u c) (hlost : ¬ Lost u d) :
    Settled u d ∧ ∀ {rs' e},
      Rounds Cursor.roundOfProgram? (d.within x) rs' e →
      Rounds Cursor.roundOfProgram? (c.within x)
        (rs.map (Round.within x) ++ rs') e := by
  induction h with
  | stop => exact ⟨hc, id⟩
  | @next c d r rs hsome hmore ih =>
      have hc : Among u c := by
        refine ⟨hc, fun hrest => ?_⟩
        cases (Rounds.next hsome hmore).eq_of_rest hrest with
        | intro hnil => cases hnil
      obtain ⟨hend, -, hbrace⟩ := hc.kind_ne hu
      cases hsome.symm.trans (Cursor.roundOfProgram_eq hend hbrace)
      rcases Cursor.round_settles hu hfree hknows hc maxNesting
        with ⟨hn, hdeep⟩ | ⟨hsame, hd⟩
      · exact absurd ⟨hn, (hmore.later fun _ _ => .roundOfProgram).isDeep
          hdeep⟩ hlost
      · obtain ⟨hsettled, hgo⟩ := ih (hknows.round _ _) hd hlost
        have hkind := Cursor.kind_within (x := x) hc.sees
        have hlong := Cursor.roundOfProgram_eq (hkind ▸ hend)
          (hkind ▸ hbrace)
        rw [hsame] at hlong
        exact ⟨hsettled, fun h => .next hlong (hgo h)⟩

end Script.Tree
