/-
Code with marks at its places. A mark says what is known of the machine at
a place, whatever way leads there; how high the stack is, or which
variables have a value. A marking agrees with code if each instruction
finds what it asks for, and if it turns the mark at its place into the
ones at the places that may follow.

Code is put together from pieces, and so are its marks. A piece is marked
if there are marks for its places that agree with its instructions, and if
none of its jumps leaves it; its end counts as a place of the piece.
Marked pieces can be joined where their marks meet, and there is one rule
for each way in which code jumps over pieces.
-/
import Script.Code.Basic

namespace Script.Code

-- ========================================================= instructions

namespace Instr

/-- The place that an instruction may jump to. -/
def target? : Instr → Option Nat
  | .jump target | .jumpIfFalse target => some target
  | _ => none

/-- Whether the next instruction may follow. -/
def goesOn : Instr → Bool
  | .jump _ | .leave => false
  | _ => true

/-- Whether one place may follow on another one by an instruction. -/
def Leads (instr : Instr) (place next : Nat) : Prop :=
  instr.target? = some next ∨ instr.goesOn = true ∧ next = place + 1

end Instr

-- ================================================================ jumps

/-- Whether code that starts at a place jumps no further than its end. -/
def Inside (start : Nat) (code : List Instr) : Prop :=
  ∀ instr ∈ code, ∀ target, instr.target? = some target →
    start ≤ target ∧ target ≤ start + code.length

/-- Whether no jump of some code leads out of a range of places. -/
def Between (lo hi : Nat) (code : List Instr) : Prop :=
  ∀ instr ∈ code, ∀ target, instr.target? = some target →
    lo ≤ target ∧ target ≤ hi

variable {start : Nat} {instr : Instr} {l r code : List Instr}

/-- Where the machine can be behind an instruction of a piece. -/
theorem Inside.leads (h : Inside start code) {k next : Nat}
    (hinstr : code[k]? = some instr)
    (hnext : instr.Leads (start + k) next) :
    start ≤ next ∧ next ≤ start + code.length := by
  obtain ⟨hk, rfl⟩ := List.getElem?_eq_some_iff.1 hinstr
  rcases hnext with htarget | ⟨-, rfl⟩
  · exact h _ (List.getElem_mem hk) next htarget
  · omega

theorem Inside.within {lo hi : Nat} (h : Inside start code)
    (hlo : lo ≤ start) (hhi : start + code.length ≤ hi) :
    Between lo hi code := by
  intro instr hinstr target htarget
  obtain ⟨hle, hle'⟩ := h instr hinstr target htarget
  exact ⟨Nat.le_trans hlo hle, Nat.le_trans hle' hhi⟩

theorem Between.append {lo hi : Nat} (hl : Between lo hi l)
    (hr : Between lo hi r) : Between lo hi (l ++ r) :=
  List.forall_mem_append.2 ⟨hl, hr⟩

theorem Between.nil (lo hi : Nat) : Between lo hi [] :=
  fun _ h => nomatch h

/-- A jump in front of other code. -/
theorem Between.cons {lo hi place : Nat} (htarget : instr.target? = some place)
    (hplace : lo ≤ place ∧ place ≤ hi) (hr : Between lo hi r) :
    Between lo hi (instr :: r) := by
  refine List.forall_mem_cons.2 ⟨fun target h => ?_, hr⟩
  cases htarget.symm.trans h
  exact hplace

theorem Inside.append (hl : Inside start l)
    (hr : Inside (start + l.length) r) : Inside start (l ++ r) := by
  refine Between.append (hl.within (Nat.le_refl _) ?_)
    (hr.within (Nat.le_add_right ..) ?_)
  all_goals
    rw [List.length_append]
    omega

theorem Inside.single (htarget : instr.target? = none) :
    Inside start [instr] := by
  intro instr' hinstr target hjump
  obtain rfl := List.mem_singleton.1 hinstr
  rw [htarget] at hjump
  cases hjump

-- ================================================================ marks

/-- What there is to say of marks: what an instruction asks of the mark at
its place, which marks may stand behind it, and which marks say less than
others. -/
structure Marking (M : Type) where
  asks : Instr → M → Prop
  leads : Instr → M → M → Prop
  below : M → M → Prop
  below_refl : ∀ a, below a a
  below_trans : ∀ {a b c}, below a b → below b c → below a c
  /-- Less can always be said of the places behind. -/
  leads_below : ∀ {instr a b c}, leads instr a b → below c b →
    leads instr a c
  /-- A jump changes nothing. -/
  jump : ∀ target a, asks (.jump target) a ∧ leads (.jump target) a a

namespace Marking

variable {M : Type} (A : Marking M)

/-- Whether marks agree with an instruction at a place. -/
structure Agrees (mark : Nat → M) (place : Nat) (instr : Instr) :
    Prop where
  asks : A.asks instr (mark place)
  leads : ∀ next, instr.Leads place next →
    A.leads instr (mark place) (mark next)

/-- Whether marks agree with code that starts at a place. -/
def Typed (mark : Nat → M) (start : Nat) (code : List Instr) : Prop :=
  ∀ k instr, code[k]? = some instr → A.Agrees mark (start + k) instr

/-- Whether code that starts at a place asks for no more than one mark
says, and leads to another one. -/
def Marked (start : Nat) (code : List Instr) (before behind : M) : Prop :=
  ∃ mark, A.below (mark start) before
    ∧ mark (start + code.length) = behind
    ∧ A.Typed mark start code ∧ Inside start code

variable {A} {mark mark' : Nat → M} {before between behind : M}

/-- Marks matter at the places of a piece only, and less can be said of
its end. -/
theorem Typed.congr (h : A.Typed mark start code) (hin : Inside start code)
    (hsame : ∀ i, start ≤ i → i < start + code.length → mark' i = mark i)
    (hend : A.below (mark' (start + code.length))
      (mark (start + code.length))) : A.Typed mark' start code := by
  intro k instr hinstr
  obtain ⟨hasks, hleads⟩ := h k instr hinstr
  have hk : k < code.length := (List.getElem?_eq_some_iff.1 hinstr).1
  have hhere : mark' (start + k) = mark (start + k) :=
    hsame _ (by omega) (by omega)
  refine ⟨hhere ▸ hasks, fun next hnext => ?_⟩
  obtain ⟨hlo, hhi⟩ := hin.leads hinstr hnext
  rw [hhere]
  refine A.leads_below (hleads next hnext) ?_
  rcases Nat.lt_or_eq_of_le hhi with hlt | rfl
  · rw [hsame next hlo hlt]
    exact A.below_refl _
  · exact hend

theorem Typed.nil (mark : Nat → M) (start : Nat) : A.Typed mark start [] :=
  fun _ _ h => nomatch h

theorem Typed.append (hl : A.Typed mark start l)
    (hr : A.Typed mark (start + l.length) r) :
    A.Typed mark start (l ++ r) := by
  intro k instr hinstr
  by_cases hk : k < l.length
  · rw [List.getElem?_append_left hk] at hinstr
    exact hl k instr hinstr
  · rw [List.getElem?_append_right (Nat.le_of_not_lt hk)] at hinstr
    have hplace : start + k = start + l.length + (k - l.length) := by omega
    rw [hplace]
    exact hr _ instr hinstr

theorem Typed.cons (hinstr : A.Agrees mark start instr)
    (hr : A.Typed mark (start + 1) r) :
    A.Typed mark start (instr :: r) := by
  refine Typed.append (l := [instr]) (fun k instr' hk => ?_) hr
  obtain ⟨rfl, rfl⟩ : k = 0 ∧ instr = instr' := by
    cases k with
    | zero => exact ⟨rfl, Option.some.inj hk⟩
    | succ k => cases hk
  exact hinstr

theorem Agrees.jump {place target : Nat}
    (htarget : A.below (mark target) (mark place)) :
    A.Agrees mark place (.jump target) := by
  obtain ⟨hasks, hleads⟩ := A.jump target (mark place)
  refine ⟨hasks, ?_⟩
  rintro next (hnext | ⟨hnext, -⟩)
  · cases hnext
    exact A.leads_below hleads htarget
  · cases hnext

/-- A condition that lets the machine go on with less than there was. -/
theorem Agrees.jumpIfFalse {place target : Nat}
    (hasks : A.asks (.jumpIfFalse target) (mark place))
    (hleads : A.leads (.jumpIfFalse target) (mark place) before)
    (hnext : A.below (mark (place + 1)) before)
    (htarget : A.below (mark target) before) :
    A.Agrees mark place (.jumpIfFalse target) := by
  refine ⟨hasks, ?_⟩
  rintro next (hleads' | ⟨-, rfl⟩)
  · cases hleads'
    exact A.leads_below hleads htarget
  · exact A.leads_below hleads hnext

-- ================================================================ rules

namespace Marked

/-- Less can be said of the end of a piece. -/
theorem weaken {behind' : M} (h : A.Marked start code before behind)
    (hbehind : A.below behind' behind) :
    A.Marked start code before behind' := by
  obtain ⟨mark, h₀, rfl, htyped, hin⟩ := h
  let mark' (i : Nat) : M :=
    if i = start + code.length then behind' else mark i
  have hend : mark' (start + code.length) = behind' := if_pos rfl
  have hsame (i : Nat) (hi : i ≠ start + code.length) : mark' i = mark i :=
    if_neg hi
  refine ⟨mark', ?_, hend, htyped.congr hin (fun i _ hi => hsame i
    (Nat.ne_of_lt hi)) (hend ▸ hbehind), hin⟩
  -- The beginning of the piece may be its end.
  by_cases hstart : start = start + code.length
  · have hmark : mark' start = behind' := if_pos hstart
    rw [hmark]
    rw [hstart] at h₀
    exact A.below_trans hbehind h₀
  · rw [hsame start hstart]
    exact h₀

/-- More may be known in front of a piece than it asks for. -/
theorem strengthen {before' : M} (h : A.Marked start code before behind)
    (hbefore : A.below before before') :
    A.Marked start code before' behind := by
  obtain ⟨mark, h₀, hrest⟩ := h
  exact ⟨mark, A.below_trans h₀ hbefore, hrest⟩

theorem nil : A.Marked start [] before before :=
  ⟨fun _ => before, A.below_refl _, rfl, .nil _ _, fun _ h => nomatch h⟩

/-- An instruction without a jump. -/
theorem single (htarget : instr.target? = none)
    (hasks : A.asks instr before)
    (hleads : instr.goesOn = true → A.leads instr before behind) :
    A.Marked start [instr] before behind := by
  let mark (i : Nat) : M := if i = start then before else behind
  have hstart : mark start = before := if_pos rfl
  have hend : mark (start + 1) = behind := if_neg (Nat.succ_ne_self start)
  refine ⟨mark, hstart ▸ A.below_refl _, hend, .cons ⟨?_, ?_⟩ (.nil _ _),
    .single htarget⟩
  · rw [hstart]
    exact hasks
  · rintro next (hnext | ⟨hgoes, rfl⟩)
    · rw [htarget] at hnext
      cases hnext
    · rw [hstart, hend]
      exact hleads hgoes

theorem append (hl : A.Marked start l before between)
    (hr : A.Marked (start + l.length) r between behind) :
    A.Marked start (l ++ r) before behind := by
  obtain ⟨markl, hl₀, hl₁, hltyped, hlin⟩ := hl
  obtain ⟨markr, hr₀, hr₁, hrtyped, hrin⟩ := hr
  let mark (i : Nat) : M := if i < start + l.length then markl i else markr i
  have hl (i : Nat) (h : i < start + l.length) : mark i = markl i := if_pos h
  have hr (i : Nat) (h : start + l.length ≤ i) : mark i = markr i :=
    if_neg (Nat.not_lt_of_le h)
  -- Where the pieces meet, the second one asks for no more than the first
  -- one leads to.
  have hmeet : A.below (mark (start + l.length))
      (markl (start + l.length)) := by
    rw [hr _ (Nat.le_refl _), hl₁]
    exact hr₀
  refine ⟨mark, ?_, ?_, .append
    (hltyped.congr hlin (fun i _ hi => hl i hi) hmeet)
    (hrtyped.congr hrin (fun i hi _ => hr i hi) ?_), hlin.append hrin⟩
  · by_cases hlt : start < start + l.length
    · rw [hl _ hlt]
      exact hl₀
    · obtain heq : start + l.length = start := by omega
      rw [heq] at hmeet
      exact A.below_trans hmeet hl₀
  · rw [List.length_append, ← Nat.add_assoc, hr _ (Nat.le_add_right ..)]
    exact hr₁
  · rw [hr _ (Nat.le_add_right ..)]
    exact A.below_refl _

variable {test : M}

/-- One of two pieces, by the truth value on the stack. -/
theorem choice {yes no : List Instr} {isFalse done : Nat}
    (hasks : A.asks (.jumpIfFalse isFalse) test)
    (hleads : A.leads (.jumpIfFalse isFalse) test before)
    (hyes : A.Marked (start + 1) yes before behind)
    (hno : A.Marked isFalse no before behind)
    (hisFalse : isFalse = start + 1 + yes.length + 1)
    (hdone : done = isFalse + no.length) :
    A.Marked start (.jumpIfFalse isFalse :: (yes ++ .jump done :: no))
      test behind := by
  obtain ⟨marky, hy₀, hy₁, hytyped, hyin⟩ := hyes
  obtain ⟨markn, hn₀, hn₁, hntyped, hnin⟩ := hno
  let mark (i : Nat) : M :=
    if i ≤ start then test
    else if i < isFalse then marky i else markn i
  have hfirst : mark start = test := if_pos (Nat.le_refl _)
  have hyes (i : Nat) (h : start + 1 ≤ i) (h' : i ≤ start + 1 + yes.length) :
      mark i = marky i := by
    show (if i ≤ start then _ else _) = _
    rw [if_neg (by omega), if_pos (by omega)]
  have hno (i : Nat) (h : isFalse ≤ i) : mark i = markn i := by
    show (if i ≤ start then _ else _) = _
    rw [if_neg (by omega), if_neg (by omega)]
  have hbranch : A.Agrees mark start (.jumpIfFalse isFalse) := by
    refine .jumpIfFalse (hfirst ▸ hasks) (hfirst ▸ hleads) ?_ ?_
    · rw [hyes _ (Nat.le_refl _) (Nat.le_add_right ..)]
      exact hy₀
    · rw [hno _ (Nat.le_refl _)]
      exact hn₀
  have hskip : A.Agrees mark (start + 1 + yes.length) (.jump done) := by
    refine .jump ?_
    rw [hyes _ (Nat.le_add_right ..) (Nat.le_refl _), hno _ (by omega),
      hdone, hn₁, hy₁]
    exact A.below_refl _
  have hend : start + (Instr.jumpIfFalse isFalse :: (yes ++ Instr.jump done ::
      no)).length = done := by
    simp only [List.length_cons, List.length_append]
    omega
  refine ⟨mark, hfirst ▸ A.below_refl _, ?_, .cons hbranch (.append
    (hytyped.congr hyin (fun i hi hi' => hyes i hi (Nat.le_of_lt hi')) ?_)
      (.cons hskip ?_)), ?_⟩
  · rw [hend, hno _ (by omega), hdone]
    exact hn₁
  · rw [hyes _ (Nat.le_add_right ..) (Nat.le_refl _)]
    exact A.below_refl _
  · rw [← hisFalse]
    refine hntyped.congr hnin (fun i hi _ => hno i hi) ?_
    rw [hno _ (Nat.le_add_right ..)]
    exact A.below_refl _
  · unfold Inside
    rw [hend]
    exact Between.cons rfl (by omega)
      (.append (hyin.within (by omega) (by omega))
        (.cons rfl (by omega) (hnin.within (by omega) (by omega))))

/-- A piece or nothing, by the truth value on the stack. -/
theorem branch {yes : List Instr} {done : Nat}
    (hasks : A.asks (.jumpIfFalse done) test)
    (hleads : A.leads (.jumpIfFalse done) test before)
    (hyes : A.Marked (start + 1) yes before before)
    (hdone : done = start + 1 + yes.length) :
    A.Marked start (.jumpIfFalse done :: yes) test before := by
  obtain ⟨marky, hy₀, hy₁, hytyped, hyin⟩ := hyes
  let mark (i : Nat) : M := if i ≤ start then test else marky i
  have hfirst : mark start = test := if_pos (Nat.le_refl _)
  have hyes (i : Nat) (h : start + 1 ≤ i) : mark i = marky i :=
    if_neg (by omega)
  have hbehind : mark done = before := by
    rw [hyes _ (by omega), hdone]
    exact hy₁
  have hbranch : A.Agrees mark start (.jumpIfFalse done) := by
    refine .jumpIfFalse (hfirst ▸ hasks) (hfirst ▸ hleads) ?_
      (hbehind ▸ A.below_refl _)
    rw [hyes _ (Nat.le_refl _)]
    exact hy₀
  have hend : start + (Instr.jumpIfFalse done :: yes).length = done := by
    rw [List.length_cons]
    omega
  refine ⟨mark, hfirst ▸ A.below_refl _, ?_, .cons hbranch
    (hytyped.congr hyin (fun i hi _ => hyes i hi) ?_), ?_⟩
  · rw [hend]
    exact hbehind
  · rw [hyes _ (Nat.le_add_right ..)]
    exact A.below_refl _
  · unfold Inside
    rw [hend]
    exact Between.cons rfl (by omega) (hyin.within (by omega) (by omega))

/-- A piece that is run again and again, with a test in front of it. -/
theorem loop {cond body : List Instr} {done : Nat}
    (hasks : A.asks (.jumpIfFalse done) test)
    (hleads : A.leads (.jumpIfFalse done) test before)
    (hcond : A.Marked start cond before test)
    (hbody : A.Marked (start + cond.length + 1) body before before)
    (hdone : done = start + cond.length + 1 + body.length + 1) :
    A.Marked start (cond ++ .jumpIfFalse done :: (body ++ [.jump start]))
      before before := by
  obtain ⟨markc, hc₀, hc₁, hctyped, hcin⟩ := hcond
  obtain ⟨markb, hb₀, hb₁, hbtyped, hbin⟩ := hbody
  let mark (i : Nat) : M :=
    if i ≤ start + cond.length then markc i
    else if i < done then markb i else before
  have hcond (i : Nat) (h : i ≤ start + cond.length) : mark i = markc i :=
    if_pos h
  have hbody (i : Nat) (h : start + cond.length + 1 ≤ i)
      (h' : i ≤ start + cond.length + 1 + body.length) :
      mark i = markb i := by
    show (if i ≤ start + cond.length then _ else _) = _
    rw [if_neg (by omega), if_pos (by omega)]
  have hbehind : mark done = before := by
    show (if done ≤ start + cond.length then _ else _) = _
    rw [if_neg (by omega), if_neg (Nat.lt_irrefl _)]
  have htest : mark (start + cond.length) = test :=
    (hcond _ (Nat.le_refl _)).trans hc₁
  have hbranch : A.Agrees mark (start + cond.length) (.jumpIfFalse done) := by
    refine .jumpIfFalse (htest ▸ hasks) (htest ▸ hleads) ?_
      (hbehind ▸ A.below_refl _)
    rw [hbody _ (Nat.le_refl _) (Nat.le_add_right ..)]
    exact hb₀
  have hback : A.Agrees mark (start + cond.length + 1 + body.length)
      (.jump start) := by
    refine .jump ?_
    rw [hbody _ (Nat.le_add_right ..) (Nat.le_refl _),
      hcond _ (Nat.le_add_right ..), hb₁]
    exact hc₀
  have hend : start + (cond ++ Instr.jumpIfFalse done ::
      (body ++ [Instr.jump start])).length = done := by
    simp only [List.length_cons, List.length_append, List.length_nil]
    omega
  refine ⟨mark, ?_, ?_, .append
    (hctyped.congr hcin (fun i _ hi => hcond i (Nat.le_of_lt hi)) ?_)
    (.cons hbranch (.append
      (hbtyped.congr hbin (fun i hi hi' => hbody i hi (Nat.le_of_lt hi')) ?_)
        (.cons hback (.nil _ _)))), ?_⟩
  · rw [hcond _ (Nat.le_add_right ..)]
    exact hc₀
  · rw [hend]
    exact hbehind
  · rw [hcond _ (Nat.le_refl _)]
    exact A.below_refl _
  · rw [hbody _ (Nat.le_add_right ..) (Nat.le_refl _)]
    exact A.below_refl _
  · unfold Inside
    rw [hend]
    exact Between.append (hcin.within (by omega) (by omega))
      (.cons rfl (by omega) (.append (hbin.within (by omega) (by omega))
        (.cons rfl (by omega) (.nil _ _))))

end Marked

end Marking

end Script.Code
