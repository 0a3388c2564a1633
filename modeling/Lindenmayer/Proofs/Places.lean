import Lindenmayer.Proofs.Acceptance
import Lindenmayer.Proofs.Lossless

/-!
# Where in the source things are read

Every region that reading makes up is put together from regions of tokens, and
so lies within the source, between two characters. What is read from the tokens
between two places of the source has its regions between these places; the
expression has all its parts in its own region, and a block its statements one
behind the other. `Located` says so for each kind of syntax.

What reading complains about has a place as well. Each reader therefore has one
lemma that covers both of its endings (`Answers`), and the lemma of a reader is
put together from those of the readers that it calls. The result is
`located_ofSource`.
-/

namespace Lindenmayer

open Lindenmayer.Text

namespace Text

/-- Whether a number of bytes is a number of whole characters. -/
def IsBoundary (source : String) (n : Nat) : Prop :=
  ∃ front back, source.toList = front ++ back ∧ byteLength front = n

theorem isBoundary_zero (source : String) : IsBoundary source 0 := ⟨[], _, rfl, rfl⟩

theorem IsBoundary.le {source : String} {n : Nat} (h : IsBoundary source n) :
    n ≤ source.utf8ByteSize := by
  obtain ⟨front, back, hsplit, rfl⟩ := h
  rw [utf8ByteSize_eq, hsplit, byteLength_append]
  exact Nat.le_add_right _ _

end Text

namespace Region

variable {source : String} {r s u : Region}

/-- Whether a region starts and stops between two characters of a source. -/
structure Within (source : String) (r : Region) : Prop where
  start : IsBoundary source r.start
  stop : IsBoundary source r.stop

/-- Whether a region is a part of another. -/
def Inside (r s : Region) : Prop := s.start ≤ r.start ∧ r.stop ≤ s.stop

theorem start_le_stop (r : Region) : r.start ≤ r.stop := Nat.le_add_right _ _

theorem Inside.refl (r : Region) : r.Inside r := ⟨Nat.le_refl _, Nat.le_refl _⟩

theorem Inside.trans (h : r.Inside s) (h' : s.Inside u) : r.Inside u :=
  ⟨Nat.le_trans h'.1 h.1, Nat.le_trans h.2 h'.2⟩

theorem inside_merge_left (r s : Region) : r.Inside (r.merge s) := by
  refine ⟨Nat.min_le_left _ _, ?_⟩
  rw [merge_stop]
  exact Nat.le_max_left _ _

theorem inside_merge_right (r s : Region) : s.Inside (r.merge s) := by
  rw [merge_comm]
  exact inside_merge_left s r

theorem merge_inside (h : r.Inside u) (h' : s.Inside u) : (r.merge s).Inside u := by
  refine ⟨Nat.le_min.2 ⟨h.1, h'.1⟩, ?_⟩
  rw [merge_stop]
  exact Nat.max_le.2 ⟨h.2, h'.2⟩

/-- A region with a part of it is the region. -/
theorem merge_eq_of_inside (h : s.Inside r) : r.merge s = r := by
  have hle := r.start_le_stop
  obtain ⟨hstart, hstop⟩ := h
  rw [merge, between, Nat.min_eq_left hstart, Nat.max_eq_left hstop]
  simp only [stop, Nat.add_sub_cancel_left]

namespace Within

theorem merge (h : r.Within source) (h' : s.Within source) : (r.merge s).Within source := by
  constructor
  · rw [merge_start]
    rcases Nat.le_total r.start s.start with hle | hle
    · rw [Nat.min_eq_left hle]
      exact h.start
    · rw [Nat.min_eq_right hle]
      exact h'.start
  · rw [merge_stop]
    rcases Nat.le_total r.stop s.stop with hle | hle
    · rw [Nat.max_eq_right hle]
      exact h'.stop
    · rw [Nat.max_eq_left hle]
      exact h.stop

end Within

/-- Whether a region is between two places of a source. -/
structure Between (source : String) (lo hi : Nat) (r : Region) : Prop where
  within : r.Within source
  start : lo ≤ r.start
  stop : r.stop ≤ hi

namespace Between

variable {lo hi : Nat}

theorem mono {lo' hi' : Nat} (h : r.Between source lo hi) (hlo : lo' ≤ lo) (hhi : hi ≤ hi') :
    r.Between source lo' hi' :=
  ⟨h.within, Nat.le_trans hlo h.start, Nat.le_trans h.stop hhi⟩

theorem merge (h : r.Between source lo hi) (h' : s.Between source lo hi) :
    (r.merge s).Between source lo hi := by
  refine ⟨h.within.merge h'.within, Nat.le_min.2 ⟨h.start, h'.start⟩, ?_⟩
  rw [merge_stop]
  exact Nat.max_le.2 ⟨h.stop, h'.stop⟩

end Between

theorem within_origin (source : String) : origin.Within source :=
  ⟨isBoundary_zero source, isBoundary_zero source⟩

theorem within_empty {n : Nat} (h : IsBoundary source n) : (⟨n, 0⟩ : Region).Within source :=
  ⟨h, h⟩

end Region

namespace Token

variable {source : String} {t : Token} {ts us : List Token}

/-! ## Places of tokens -/

/-- Where the first of the last tokens of a source starts, or else the source
stops. -/
def place (source : String) : List Token → Nat
  | [] => source.utf8ByteSize
  | t :: _ => t.offset

theorem place_eq {front : List Token} (h : scan source = front ++ ts) :
    place source ts = byteLength (front.flatMap fun t => t.text.toList) := by
  cases ts with
  | nil =>
      have htexts := flatMap_text_scanFrom 0 source.toList
      rw [show scanFrom 0 source.toList = _ from h, List.append_nil] at htexts
      rw [place, utf8ByteSize_eq, htexts]
  | cons t ts => rw [place, offset_of_scanFrom h, Nat.zero_add]

theorem isBoundary_place (h : ts <:+ scan source) : IsBoundary source (place source ts) := by
  obtain ⟨front, hfront⟩ := h
  have htexts := flatMap_text_scanFrom 0 source.toList
  rw [show scanFrom 0 source.toList = _ from hfront.symm, List.flatMap_append] at htexts
  exact ⟨_, _, htexts.symm, (place_eq hfront.symm).symm⟩

/-- A token stops where the next one starts. -/
theorem stop_eq_place (h : t :: ts <:+ scan source) : t.region.stop = place source ts := by
  obtain ⟨front, hfront⟩ := h
  have hnext : scan source = (front ++ [t]) ++ ts := by
    rw [← hfront, List.append_assoc, List.singleton_append]
  rw [place_eq hnext, List.flatMap_append, byteLength_append, List.flatMap_singleton,
    ← place_eq hfront.symm, place, Region.stop, region, utf8ByteSize_eq]

theorem place_mono (h : ts <:+ us) (hus : us <:+ scan source) :
    place source us ≤ place source ts := by
  obtain ⟨front, hfront⟩ := hus
  obtain ⟨middle, rfl⟩ := h
  rw [place_eq hfront.symm, place_eq (hfront.symm.trans (List.append_assoc _ _ _).symm),
    List.flatMap_append, byteLength_append]
  exact Nat.le_add_right _ _

theorem within_of_mem (h : t ∈ scan source) : t.region.Within source := by
  obtain ⟨front, back, hsplit⟩ := List.append_of_mem h
  have hhere : t :: back <:+ scan source := ⟨front, hsplit.symm⟩
  refine ⟨isBoundary_place hhere, ?_⟩
  rw [stop_eq_place hhere]
  exact isBoundary_place ((List.suffix_cons t back).trans hhere)

theorem between_of_suffix {lo : Nat} (h : t :: ts <:+ scan source)
    (hlo : lo ≤ place source (t :: ts)) : t.region.Between source lo (place source ts) :=
  ⟨within_of_mem (h.mem List.mem_cons_self), hlo, Nat.le_of_eq (stop_eq_place h)⟩

theorem sliceBytes_region (h : t ∈ scan source) :
    sliceBytes t.region.start t.region.stop source.toList = t.text.toList := by
  obtain ⟨front, back, hsplit⟩ := List.append_of_mem h
  exact sliceBytes_of_scan hsplit

/-- The tokens in front of others are between the two places. -/
theorem between_places (h : ts ++ us <:+ scan source) (ht : t ∈ ts) :
    place source (ts ++ us) ≤ t.region.start ∧ t.region.stop ≤ place source us := by
  obtain ⟨front, back, rfl⟩ := List.append_of_mem ht
  have htail : t :: (back ++ us) <:+ front ++ t :: back ++ us := by
    rw [List.append_assoc]
    exact List.suffix_append _ _
  refine ⟨place_mono htail h, ?_⟩
  rw [stop_eq_place (htail.trans h)]
  exact place_mono (List.suffix_append _ _) ((List.suffix_cons t _).trans (htail.trans h))

end Token

/-! ## Syntax that has its place -/

/-- Whether a region is that of a token of a source, which is of a kind and has
a text. -/
def Region.IsToken (source : String) (kind : TokenKind) (text : String) (r : Region) : Prop :=
  ∃ t ∈ Token.scan source, t.kind = kind ∧ t.text = text ∧ t.region = r

/-- Whether all of an expression was read in a region of a source. -/
def Expr.Located (source : String) (outer : Region) : Expr → Prop
  | .number n r =>
    r.Inside outer ∧ ∃ text, r.IsToken source .number text ∧ Number.ofLiteral? text = some n
  | .string _ r => r.Inside outer ∧ r.Within source
  | .identifier name r => r.Inside outer ∧ r.IsToken source .identifier name
  | .operation _ r lhs rhs =>
    r.Inside outer ∧ r.Within source ∧ lhs.Located source outer ∧ rhs.Located source outer

/-- Whether an expression was read between two places of a source, and has all
its parts in its region. -/
structure Expression.Located (source : String) (lo hi : Nat) (e : Expression) : Prop where
  between : e.region.Between source lo hi
  value : e.value.Located source e.region

mutual

/-- Whether a statement was read between two places of a source. -/
def Statement.Located (source : String) (lo hi : Nat) : Statement → Prop
  | .assignment _ r value => r.Between source lo hi ∧ value.Located source lo hi
  | .rule _ _ _ r => r.Between source lo hi
  | .block r body => r.Between source lo hi ∧ Statement.AllLocated source r.start r.stop body
  | .expression value => value.Located source lo hi

/-- Whether statements were read one behind the other. -/
def Statement.AllLocated (source : String) (lo hi : Nat) : List Statement → Prop
  | [] => True
  | st :: more =>
    ∃ mid, mid ≤ hi ∧ st.Located source lo mid ∧ Statement.AllLocated source mid hi more

end

/-- Whether what an error says of the source is so. -/
def SyntaxError.Located (source : String) : SyntaxError → Prop
  | .prematureEnd offset => IsBoundary source offset
  | .pushBackAtStart => False
  | .unexpectedToken _ found text r => r.IsToken source found text
  | .malformed _ r => r.Within source
  | .illegalNumber literal r => r.IsToken source .number literal

/-- Whether what came out is as `P` says, or else an error that is located. -/
def Answers {α : Type} (source : String) (P : α → Prop) : Except SyntaxError α → Prop
  | .ok a => P a
  | .error e => e.Located source

theorem Answers.cases {α : Type} {source : String} {P : α → Prop} {x : Except SyntaxError α}
    (h : Answers source P x) : (∃ e, x = .error e ∧ e.Located source) ∨ ∃ a, x = .ok a ∧ P a := by
  cases x with
  | error e => exact .inl ⟨e, rfl, h⟩
  | ok a => exact .inr ⟨a, rfl, h⟩

theorem Region.IsToken.within {source : String} {kind : TokenKind} {text : String} {r : Region}
    (h : r.IsToken source kind text) : r.Within source := by
  obtain ⟨t, ht, _, _, rfl⟩ := h
  exact Token.within_of_mem ht

theorem Region.IsToken.sliceBytes_eq {source : String} {kind : TokenKind} {text : String}
    {r : Region} (h : r.IsToken source kind text) :
    sliceBytes r.start r.stop source.toList = text.toList := by
  obtain ⟨t, ht, _, rfl, rfl⟩ := h
  exact Token.sliceBytes_region ht

theorem Expression.Located.mono {source : String} {lo hi lo' hi' : Nat} {e : Expression}
    (h : e.Located source lo hi) (hlo : lo' ≤ lo) (hhi : hi ≤ hi') : e.Located source lo' hi' :=
  ⟨h.between.mono hlo hhi, h.value⟩

theorem Expr.Located.mono {source : String} {r s : Region} (hrs : r.Inside s) :
    ∀ {e : Expr}, e.Located source r → e.Located source s
  | .number _ _, h => ⟨h.1.trans hrs, h.2⟩
  | .string _ _, h => ⟨h.1.trans hrs, h.2⟩
  | .identifier _ _, h => ⟨h.1.trans hrs, h.2⟩
  | .operation _ _ _ _, h => ⟨h.1.trans hrs, h.2.1, h.2.2.1.mono hrs, h.2.2.2.mono hrs⟩

/-! ## Expressions -/

namespace ShuntingYard

variable {source : String} {r : Region} {vals vals' : List Expr}
  {ops ops' : List (Operator × Region)} {lo hi : Nat} {y : ShuntingYard}

/-- Whether all that is on the two stacks was read in a region. -/
structure Stacked (source : String) (r : Region) (ops : List (Operator × Region))
    (vals : List Expr) : Prop where
  values : ∀ v ∈ vals, v.Located source r
  operators : ∀ op ∈ ops, op.2.Within source ∧ op.2.Inside r

namespace Stacked

theorem nil : Stacked source r [] [] := ⟨nofun, nofun⟩

theorem mono (h : Stacked source r ops vals) {s : Region} (hrs : r.Inside s) :
    Stacked source s ops vals :=
  ⟨fun v hv => (h.values v hv).mono hrs,
    fun op hop => ⟨(h.operators op hop).1, (h.operators op hop).2.trans hrs⟩⟩

theorem value {e : Expr} (h : Stacked source r ops vals) (he : e.Located source r) :
    Stacked source r ops (e :: vals) := by
  refine ⟨fun v hv => ?_, h.operators⟩
  rcases List.mem_cons.1 hv with rfl | hv
  · exact he
  · exact h.values v hv

theorem operator {o : Operator} {place : Region} (h : Stacked source r ops vals)
    (hwithin : place.Within source) (hinside : place.Inside r) :
    Stacked source r ((o, place) :: ops) vals := by
  refine ⟨h.values, fun op hop => ?_⟩
  rcases List.mem_cons.1 hop with rfl | hop
  · exact ⟨hwithin, hinside⟩
  · exact h.operators op hop

theorem tail {op : Operator × Region} (h : Stacked source r (op :: ops) vals) :
    Stacked source r ops vals :=
  ⟨h.values, fun op' hop => h.operators op' (List.mem_cons_of_mem op hop)⟩

theorem apply {o : Operator} {place : Region} (h : Stacked source r ((o, place) :: ops) vals) :
    Answers source (Stacked source r ops) (ShuntingYard.apply o place vals) := by
  obtain ⟨hwithin, hinside⟩ := h.operators _ List.mem_cons_self
  unfold ShuntingYard.apply
  split
  · next rhs lhs vals =>
      have hrhs := h.values rhs List.mem_cons_self
      have hlhs := h.values lhs (List.mem_cons_of_mem _ List.mem_cons_self)
      have hvals : Stacked source r ops vals :=
        ⟨fun v hv => h.values v (List.mem_cons_of_mem _ (List.mem_cons_of_mem _ hv)),
          h.tail.operators⟩
      exact hvals.value ⟨hinside, hwithin, hlhs, hrhs⟩
  · exact hwithin

theorem applyTighter (next : Operator) (h : Stacked source r ops vals) :
    Answers source (fun p => Stacked source r p.1 p.2)
      (ShuntingYard.applyTighter next ops vals) := by
  induction ops generalizing vals with
  | nil => exact h
  | cons op ops ih =>
      obtain ⟨top, place⟩ := op
      rw [ShuntingYard.applyTighter]
      split
      · rcases h.apply.cases with ⟨e, heq, he⟩ | ⟨vals', heq, hvals⟩
        · rw [heq]
          exact he
        · rw [heq]
          exact ih hvals
      · exact h

theorem closeParens {close : Region} (hclose : close.Within source)
    (h : Stacked source r ops vals) :
    Answers source (fun p => Stacked source r p.1 p.2)
      (ShuntingYard.closeParens close ops vals) := by
  induction ops generalizing vals with
  | nil => exact hclose
  | cons op ops ih =>
      obtain ⟨top, place⟩ := op
      rw [ShuntingYard.closeParens]
      split
      · exact h.tail
      · rcases h.apply.cases with ⟨e, heq, he⟩ | ⟨vals', heq, hvals⟩
        · rw [heq]
          exact he
        · rw [heq]
          exact ih hvals

theorem applyAll (h : Stacked source r ops vals) :
    Answers source (Stacked source r []) (ShuntingYard.applyAll ops vals) := by
  induction ops generalizing vals with
  | nil => exact h
  | cons op ops ih =>
      obtain ⟨top, place⟩ := op
      rw [ShuntingYard.applyAll]
      split
      · exact (h.operators _ List.mem_cons_self).1
      · rcases h.apply.cases with ⟨e, heq, he⟩ | ⟨vals', heq, hvals⟩
        · rw [heq]
          exact he
        · rw [heq]
          exact ih hvals

end Stacked

/-- Whether what has been consumed of an expression lies between two places of a
source, and has in it all that is on the stacks. -/
structure Located (source : String) (lo hi : Nat) (y : ShuntingYard) : Prop where
  fresh : y.region = none → y.operators = [] ∧ y.values = []
  between : ∀ r ∈ y.region, r.Between source lo hi
  stacked : ∀ r ∈ y.region, Stacked source r y.operators y.values

namespace Located

theorem empty : ShuntingYard.empty.Located source lo hi := ⟨fun _ => ⟨rfl, rfl⟩, nofun, nofun⟩

theorem mono (h : y.Located source lo hi) {hi' : Nat} (hle : hi ≤ hi') :
    y.Located source lo hi' :=
  ⟨h.fresh, fun r hr => (h.between r hr).mono (Nat.le_refl _) hle, h.stacked⟩

theorem exists_stacked (h : y.Located source lo hi) :
    ∃ r, Stacked source r y.operators y.values := by
  cases hregion : y.region with
  | some r => exact ⟨r, h.stacked r hregion⟩
  | none =>
      obtain ⟨hops, hvals⟩ := h.fresh hregion
      rw [hops, hvals]
      exact ⟨.origin, .nil⟩

/-- Going on over a region, with stacks that are in order wherever the old ones
are and the region is. -/
theorem cover (h : y.Located source lo hi) {region : Region} {hi' : Nat}
    (hbetween : region.Between source lo hi') (hle : hi ≤ hi')
    (hnext : ∀ r, region.Inside r → Stacked source r y.operators y.values →
      Stacked source r ops vals) :
    (({ y with operators := ops, values := vals } : ShuntingYard).cover region).Located
      source lo hi' := by
  cases hregion : y.region with
  | none =>
      obtain ⟨hops, hvals⟩ := h.fresh hregion
      have hstacked : Stacked source region y.operators y.values := by
        rw [hops, hvals]
        exact .nil
      refine ⟨fun hnone => ?_, fun r hr => ?_, fun r hr => ?_⟩
      · simp [ShuntingYard.cover] at hnone
      · obtain rfl := Option.some.inj hr
        exact hbetween
      · obtain rfl := Option.some.inj hr
        exact hnext region (.refl region) hstacked
  | some before =>
      have hstacked := (h.stacked before hregion).mono (Region.inside_merge_left before region)
      refine ⟨fun hnone => ?_, fun r hr => ?_, fun r hr => ?_⟩
      · simp [ShuntingYard.cover] at hnone
      · obtain rfl := Option.some.inj hr
        exact ((h.between before hregion).mono (Nat.le_refl _) hle).merge hbetween
      · obtain rfl := Option.some.inj hr
        exact hnext _ (Region.inside_merge_right before region) hstacked

theorem push (h : y.Located source lo hi) {e : Expr} {region : Region} {hi' : Nat}
    (he : e.Located source region) (hbetween : region.Between source lo hi') (hle : hi ≤ hi') :
    (y.push e region).Located source lo hi' :=
  h.cover hbetween hle fun _ hinside hstacked => hstacked.value (he.mono hinside)

end Located

variable {stop : Nat} {t : Token} {ts us rest : List Token} {z : ShuntingYard}

/-- An operand is read from a region of its own, in front of what is left. -/
theorem Operand.located {e : Expr} {region : Region} (h : Operand t ts e region rest)
    (hts : t :: ts <:+ Token.scan source) (hlo : lo ≤ Token.place source (t :: ts)) :
    e.Located source region ∧ region.Between source lo (Token.place source rest) := by
  have hmem : t ∈ Token.scan source := hts.mem List.mem_cons_self
  have hfirst := Token.between_of_suffix hts hlo
  cases h with
  | identifier hkind => exact ⟨⟨.refl _, t, hmem, hkind, rfl, rfl⟩, hfirst⟩
  | number hkind hvalue => exact ⟨⟨.refl _, t.text, ⟨t, hmem, hkind, rfl, rfl⟩, hvalue⟩, hfirst⟩
  | @string _ close _ _ hs =>
      obtain ⟨body, rfl, _⟩ := body_of_readString hs
      have hclose : close :: rest <:+ t :: (body ++ close :: rest) :=
        (List.suffix_append _ _).trans (List.suffix_cons _ _)
      have hlast := Token.between_of_suffix (hclose.trans hts)
        (Nat.le_trans hlo (Token.place_mono hclose hts))
      have hmono : Token.place source (body ++ close :: rest) ≤ Token.place source rest :=
        Token.place_mono ((List.suffix_cons close rest).trans (List.suffix_append _ _))
          ((List.suffix_cons _ _).trans hts)
      have hregion := (hfirst.mono (Nat.le_refl _) hmono).merge hlast
      exact ⟨⟨.refl _, hregion.within⟩, hregion⟩

theorem Step.located (h : Step ts y us z) (hts : ts <:+ Token.scan source)
    (hlo : lo ≤ Token.place source ts) (hy : y.Located source lo (Token.place source ts)) :
    z.Located source lo (Token.place source us) := by
  have hmono := Token.place_mono h.suffix hts
  cases h with
  | blank => exact hy.mono hmono
  | operand he =>
      obtain ⟨hvalue, hbetween⟩ := he.located hts hlo
      exact hy.push hvalue hbetween hmono
  | parensOpen =>
      have hbetween := Token.between_of_suffix hts hlo
      exact hy.cover hbetween hmono
        fun _ hinside hstacked => hstacked.operator hbetween.within hinside
  | parensClose _ hclose =>
      have hbetween := Token.between_of_suffix hts hlo
      refine hy.cover hbetween hmono fun _ _ hstacked => ?_
      have hclosed := hstacked.closeParens hbetween.within
      rw [hclose] at hclosed
      exact hclosed
  | @operator _ _ _ o _ _ _ hyield =>
      have hbetween := Token.between_of_suffix hts hlo
      refine hy.cover hbetween hmono fun _ hinside hstacked => ?_
      have hyielded := hstacked.applyTighter o
      rw [hyield] at hyielded
      exact hyielded.operator hbetween.within hinside

theorem located_of_steps (h : Steps ts y us z) (hts : ts <:+ Token.scan source)
    (hlo : lo ≤ Token.place source ts) (hy : y.Located source lo (Token.place source ts)) :
    us <:+ Token.scan source ∧ lo ≤ Token.place source us ∧
      z.Located source lo (Token.place source us) := by
  induction h with
  | refl => exact ⟨hts, hlo, hy⟩
  | head hstep _ ih =>
      exact ih (hstep.suffix.trans hts) (Nat.le_trans hlo (Token.place_mono hstep.suffix hts))
        (hstep.located hts hlo hy)

/-- What is wrong is wrong with the next token, or with an operator that was read before. -/
theorem Fails.located {e : SyntaxError} (h : Fails stop ts y e)
    (hstop : stop = source.utf8ByteSize) (hts : ts <:+ Token.scan source)
    (hstacked : Stacked source r y.operators y.values) : e.Located source := by
  have hmem : ∀ {t : Token} {ts : List Token}, t :: ts <:+ Token.scan source →
      t ∈ Token.scan source := fun hts => hts.mem List.mem_cons_self
  cases h with
  | number hkind => exact ⟨_, hmem hts, hkind, rfl, rfl⟩
  | string =>
      rw [hstop]
      exact Token.isBoundary_place List.nil_suffix
  | parensClose _ hclose =>
      have hclosed := hstacked.closeParens (Token.within_of_mem (hmem hts))
      rw [hclose] at hclosed
      exact hclosed
  | @operator _ _ _ o _ _ hyield =>
      have hyielded := hstacked.applyTighter o
      rw [hyield] at hyielded
      exact hyielded
  | unknown | unexpected => exact Token.within_of_mem (hmem hts)

/-- What is read goes on from place to place, and has what it reads between
them. -/
theorem answers_read (hstop : stop = source.utf8ByteSize)
    (hts : ts <:+ Token.scan source) (hlo : lo ≤ Token.place source ts)
    (hy : y.Located source lo (Token.place source ts)) :
    Answers source
      (fun r => r.2 <:+ Token.scan source ∧ lo ≤ Token.place source r.2 ∧
        r.1.Located source lo (Token.place source r.2)) (read stop ts y) := by
  obtain ⟨us, z, hsteps, hend⟩ := read_cases stop ts y
  obtain ⟨hus, hlo', hz⟩ := located_of_steps hsteps hts hlo hy
  rcases hend with ⟨_, hread⟩ | ⟨e, hfails, hread⟩
  · rw [hread]
    exact ⟨hus, hlo', hz⟩
  · obtain ⟨r, hstacked⟩ := hz.exists_stacked
    rw [hread]
    exact hfails.located hstop hus hstacked

theorem answers_finish (hy : y.Located source lo hi) {offset : Nat}
    (hoffset : IsBoundary source offset) :
    Answers source (Expression.Located source lo hi) (y.finish offset) := by
  have hregion : (y.region.getD ⟨offset, 0⟩).Within source := by
    cases hr : y.region with
    | none => exact Region.within_empty hoffset
    | some r => exact (hy.between r hr).within
  obtain ⟨r, hstacked⟩ := hy.exists_stacked
  rw [finish]
  split
  · next hall =>
      have happlied := hstacked.applyAll
      rw [hall] at happlied
      exact happlied
  · exact hregion
  · next value hall =>
      -- A yard that has a value has consumed something.
      cases hr : y.region with
      | none =>
          obtain ⟨hops, hvals⟩ := hy.fresh hr
          rw [hops, hvals] at hall
          cases hall
      | some r =>
          have happlied := (hy.stacked r hr).applyAll
          rw [hall] at happlied
          exact ⟨hy.between r hr, happlied.values value List.mem_cons_self⟩
  · exact hregion

end ShuntingYard

theorem answers_readExpression {source : String} {stop : Nat} {ts : List Token}
    (hstop : stop = source.utf8ByteSize) (hts : ts <:+ Token.scan source) :
    Answers source
      (fun r => r.2 <:+ Token.scan source ∧ Token.place source ts ≤ Token.place source r.2 ∧
        r.1.Located source (Token.place source ts) (Token.place source r.2))
      (readExpression stop ts) := by
  rw [readExpression]
  rcases (ShuntingYard.answers_read hstop hts (Nat.le_refl _) .empty).cases with
    ⟨e, heq, he⟩ | ⟨⟨y, rest⟩, heq, hrest, hle, hlocated⟩
  · rw [heq]
    exact he
  · have hoffset : (rest.head?.map Token.offset).getD stop = Token.place source rest := by
      cases rest with
      | nil => exact hstop
      | cons t rest => rfl
    rw [heq]
    dsimp only
    rw [hoffset]
    rcases (ShuntingYard.answers_finish hlocated (Token.isBoundary_place hrest)).cases with
      ⟨e, heq, he⟩ | ⟨expression, heq, hexpression⟩
    · rw [heq]
      exact he
    · rw [heq]
      exact ⟨hrest, hle, hexpression⟩

/-! ## Streams -/

namespace TokenStream

variable {source : String} {s s' : TokenStream} {t : Token}

/-- Whether a stream has left the last tokens of a source. -/
structure In (source : String) (s : TokenStream) : Prop where
  suffix : s.rest <:+ Token.scan source
  stop : s.stop = source.utf8ByteSize
  skipping : s.skipping = true
  notBuffered : s.buffered = false

/-- Where a stream of the tokens of a source is in it. -/
def place (source : String) (s : TokenStream) : Nat := Token.place source s.rest

theorem in_ofSource (source : String) : (ofSource source).In source :=
  ⟨List.suffix_refl _, rfl, rfl, rfl⟩

namespace In

variable (h : s.In source)

include h

theorem settle_eq : s.settle = { s with rest := s.rest.dropWhile Token.isBlank } := by
  rw [settle, h.skipping, h.notBuffered]
  rfl

/-- A stream that has gone on to later tokens. -/
theorem go {rest : List Token} (hrest : rest <:+ s.rest) :
    ({ s with rest := rest, buffered := false } : TokenStream).In source ∧
      s.place source ≤ Token.place source rest :=
  ⟨⟨hrest.trans h.suffix, h.stop, h.skipping, rfl⟩, Token.place_mono hrest h.suffix⟩

theorem settle : s.settle.In source ∧ s.place source ≤ s.settle.place source := by
  rw [h.settle_eq]
  exact ⟨⟨(List.dropWhile_suffix _).trans h.suffix, h.stop, h.skipping, h.notBuffered⟩,
    Token.place_mono (List.dropWhile_suffix _) h.suffix⟩

theorem next :
    (∃ s', s.next = (.error (.prematureEnd source.utf8ByteSize), s')) ∨
    ∃ t s', s.next = (.ok t, s') ∧ s'.In source ∧ t ∈ Token.scan source ∧
      s.place source ≤ t.region.start ∧ t.region.stop = s'.place source := by
  obtain ⟨hsettle, hle⟩ := h.settle
  cases hrest : s.settle.rest with
  | nil => exact .inl ⟨_, by rw [next_of_nil hrest, h.stop]⟩
  | cons t rest =>
      have hhere := hsettle.suffix
      rw [hrest] at hhere
      rw [place, place, hrest] at hle
      refine .inr ⟨t, _, next_of_cons hrest, (hsettle.go ?_).1, hhere.mem List.mem_cons_self, hle,
        Token.stop_eq_place hhere⟩
      rw [hrest]
      exact List.suffix_cons t rest

end In

end TokenStream

/-! ## Statements -/

namespace Statement

open TokenStream (In)

variable {source : String} {s : TokenStream}

mutual

theorem Located.mono {lo hi lo' hi' : Nat} (hlo : lo' ≤ lo) (hhi : hi ≤ hi') (st : Statement)
    (h : st.Located source lo hi) : st.Located source lo' hi' := by
  match st with
  | .assignment name r value =>
      rw [Located] at h ⊢
      exact ⟨h.1.mono hlo hhi, h.2.mono hlo hhi⟩
  | .rule name expected replacement r =>
      rw [Located] at h ⊢
      exact h.mono hlo hhi
  | .block r body =>
      rw [Located] at h ⊢
      exact ⟨h.1.mono hlo hhi, h.2⟩
  | .expression value =>
      rw [Located] at h ⊢
      exact h.mono hlo hhi

theorem AllLocated.mono {lo hi lo' hi' : Nat} (hlo : lo' ≤ lo) (hhi : hi ≤ hi')
    (sts : List Statement) (h : AllLocated source lo hi sts) : AllLocated source lo' hi' sts := by
  match sts with
  | [] => exact trivial
  | st :: more =>
      rw [AllLocated] at h ⊢
      obtain ⟨mid, hmid, hfirst, hmore⟩ := h
      exact ⟨mid, Nat.le_trans hmid hhi, hfirst.mono hlo (Nat.le_refl _),
        hmore.mono (Nat.le_refl _) hhi⟩

end

/-- Whether a reader goes on in the source from a place, and what it reads is as
`P` says, which is told the place where it ends. -/
def Reads {α : Type} (source : String) (lo : Nat) (P : Nat → α → Prop) :
    Except SyntaxError (α × TokenStream) → Prop :=
  Answers source fun r =>
    r.2.In source ∧ lo ≤ r.2.place source ∧ P (r.2.place source) r.1

/-- Taking a token: the place goes from where it starts to where it stops. -/
theorem next_cases (hs : s.In source) :
    (∃ s', s.next = (.error (.prematureEnd source.utf8ByteSize), s')) ∨
    ∃ t s', s.next = (.ok t, s') ∧ s'.In source ∧ s.place source ≤ s'.place source ∧
      t ∈ Token.scan source ∧
      t.region.Between source (s.place source) (s'.place source) := by
  rcases hs.next with hn | ⟨t, s', hn, hs', hmem, hstart, hstop⟩
  · exact .inl hn
  · have hle : s.place source ≤ s'.place source := by
      rw [← hstop]
      exact Nat.le_trans hstart t.region.start_le_stop
    exact .inr ⟨t, s', hn, hs', hle, hmem, Token.within_of_mem hmem, hstart, Nat.le_of_eq hstop⟩

theorem reads_expect (kind : TokenKind) (hs : s.In source) :
    Reads source (s.place source)
      (fun hi t => t.kind = kind ∧ t.region.Between source (s.place source) hi)
      (expect kind s) := by
  rw [expect, TokenStream.nextKind]
  rcases next_cases hs with ⟨s', hn⟩ | ⟨t, s', hn, hs', hle, hmem, hbetween⟩
  · rw [hn]
    exact Token.isBoundary_place List.nil_suffix
  · rw [hn]
    by_cases hkind : t.kind = kind
    · simp only [if_pos hkind]
      exact ⟨hs', hle, hkind, hbetween⟩
    · simp only [if_neg hkind]
      exact ⟨t, hmem, rfl, rfl, rfl⟩

theorem reads_readValue (hs : s.In source) :
    Reads source (s.place source) (Expression.Located source (s.place source)) (readValue s) := by
  rw [readValue]
  rcases (answers_readExpression hs.stop hs.suffix).cases with
    ⟨e, heq, he⟩ | ⟨⟨e, rest⟩, heq, hrest, hle, hlocated⟩
  · rw [heq]
    exact he
  · rw [heq]
    exact ⟨⟨hrest, hs.stop, hs.skipping, rfl⟩, hle, hlocated⟩

/-- What holds of the regions of some tokens, and goes over to merged regions,
holds of the region of their run. -/
theorem joinRun_region {P : Region → Prop} (hmerge : ∀ r r', P r → P r' → P (r.merge r'))
    {first : Token} (hfirst : P first.region) {more : List Token}
    (hmore : ∀ t ∈ more, P t.region) : P (joinRun first more).2 := by
  have hfold : ∀ (ts : List Token) (run : String × Region), (∀ t ∈ ts, P t.region) → P run.2 →
      P (ts.foldl (fun run t => (run.1 ++ t.text, run.2.merge t.region)) run).2 := by
    intro ts
    induction ts with
    | nil => exact fun _ _ hrun => hrun
    | cons t ts ih =>
        intro run hts hrun
        exact ih _ (fun u hu => hts u (List.mem_cons_of_mem t hu))
          (hmerge _ _ hrun (hts t List.mem_cons_self))
  exact hfold more (first.text, first.region) hmore hfirst

theorem reads_unbrokenRun (hs : s.In source) :
    Reads source (s.place source)
      (fun hi run => run.2.Between source (s.place source) hi) (unbrokenRun s) := by
  rw [unbrokenRun]
  rcases next_cases hs with ⟨s', hn⟩ | ⟨t, s', hn, hs', hle, hmem, hbetween⟩
  · rw [hn]
    exact Token.isBoundary_place List.nil_suffix
  · rw [hn]
    have hsplit := List.takeWhile_append_dropWhile (p := fun t : Token => !t.isBlank) (l := s'.rest)
    have hdrop := (List.dropWhile_suffix (l := s'.rest) fun t => !t.isBlank)
    have hle' := Token.place_mono hdrop hs'.suffix
    refine ⟨⟨hdrop.trans hs'.suffix, hs'.stop, hs'.skipping, hs'.notBuffered⟩,
      Nat.le_trans hle hle', ?_⟩
    refine joinRun_region (fun _ _ => Region.Between.merge) (hbetween.mono (Nat.le_refl _) hle')
      fun u hu => ?_
    have hrest := hs'.suffix
    rw [← hsplit] at hrest
    obtain ⟨hstart, hstop⟩ := Token.between_places hrest hu
    rw [hsplit] at hstart
    have hu' : u ∈ Token.scan source := hs'.suffix.mem (List.takeWhile_subset _ hu)
    exact ⟨Token.within_of_mem hu', Nat.le_trans hle hstart, hstop⟩

theorem reads_readRuleName (hs : s.In source) :
    (readRuleName s).2.In source ∧ s.place source ≤ (readRuleName s).2.place source := by
  rw [readRuleName]
  rcases next_cases hs with ⟨s', hn⟩ | ⟨t, s', hn, hs', hle, _⟩
  · rw [hn]
    exact ⟨hs, Nat.le_refl _⟩
  · rw [hn]
    dsimp only
    split
    · exact ⟨hs', hle⟩
    · exact ⟨hs, Nat.le_refl _⟩

theorem reads_readAssignment (hs : s.In source) :
    Reads source (s.place source) (fun hi st => st.Located source (s.place source) hi)
      (readAssignment s) := by
  rw [readAssignment]
  rcases (reads_expect .setWord hs).cases with
    ⟨e, heq, he⟩ | ⟨⟨set, s₁⟩, heq, hs₁, hle₁, _, hset⟩
  · rw [heq]
    exact he
  rw [heq]
  rcases (reads_expect .identifier hs₁).cases with
    ⟨e, heq, he⟩ | ⟨⟨name, s₂⟩, heq, hs₂, hle₂, _⟩
  · simp only [heq]
    exact he
  simp only [heq]
  rcases (reads_expect .assignment hs₂).cases with
    ⟨e, heq, he⟩ | ⟨⟨equals, s₃⟩, heq, hs₃, hle₃, _, hequals⟩
  · rw [heq]
    exact he
  rw [heq]
  rcases (reads_readValue hs₃).cases with
    ⟨e, heq, he⟩ | ⟨⟨value, s₄⟩, heq, hs₄, hle₄, hvalue⟩
  · simp only [heq]
    exact he
  simp only [heq]
  dsimp only at hle₁ hset hle₂ hle₃ hequals hle₄ hvalue
  have hle : s.place source ≤ s₂.place source := Nat.le_trans hle₁ hle₂
  have hregion := (hset.mono (Nat.le_refl _) (Nat.le_trans hle₂ (Nat.le_trans hle₃ hle₄))).merge
    (hequals.mono hle hle₄)
  exact ⟨hs₄, Nat.le_trans hle (Nat.le_trans hle₃ hle₄), hregion,
    hvalue.mono (Nat.le_trans hle hle₃) (Nat.le_refl _)⟩

theorem reads_readRule (hs : s.In source) :
    Reads source (s.place source) (fun hi st => st.Located source (s.place source) hi)
      (readRule s) := by
  rw [readRule]
  rcases (reads_expect .ruleWord hs).cases with
    ⟨e, heq, he⟩ | ⟨⟨word, s₁⟩, heq, hs₁, hle₁, _, hword⟩
  · rw [heq]
    exact he
  rw [heq]
  obtain ⟨hs₂, hle₂⟩ := reads_readRuleName hs₁
  rcases (reads_expect .colon hs₂).cases with
    ⟨e, heq, he⟩ | ⟨⟨colon, s₃⟩, heq, hs₃, hle₃, _⟩
  · simp only [heq]
    exact he
  simp only [heq]
  rcases (reads_unbrokenRun hs₃).cases with ⟨e, heq, he⟩ | ⟨⟨expected, s₄⟩, heq, hs₄, hle₄, _⟩
  · rw [heq]
    exact he
  rw [heq]
  rcases (reads_expect .arrow hs₄).cases with ⟨e, heq, he⟩ | ⟨⟨arrow, s₅⟩, heq, hs₅, hle₅, _⟩
  · simp only [heq]
    exact he
  simp only [heq]
  rcases (reads_unbrokenRun hs₅).cases with
    ⟨e, heq, he⟩ | ⟨⟨replacement, s₆⟩, heq, hs₆, hle₆, hlast⟩
  · rw [heq]
    exact he
  rw [heq]
  dsimp only at hle₁ hword hle₂ hle₃ hle₄ hle₅ hle₆ hlast ⊢
  have hle : s.place source ≤ s₅.place source := by omega
  have hregion := (hword.mono (Nat.le_refl _) (by omega : _ ≤ s₆.place source)).merge
    (hlast.mono hle (Nat.le_refl _))
  exact ⟨hs₆, Nat.le_trans hle hle₆, hregion⟩

mutual

theorem reads_read {s : TokenStream} (hs : s.In source) :
    Reads source (s.place source) (fun hi st => st.Located source (s.place source) hi)
      ((read s).map Subtype.val) := by
  rcases next_cases hs with ⟨s', hn⟩ | ⟨t, after, hn, hafter, hle, _, hopen⟩
  · rw [read_of_end hn]
    exact Token.isBoundary_place List.nil_suffix
  · have hlt := TokenStream.remaining_next_lt hn
    rw [read_of_next hn]
    split
    · have hread := reads_readBody hafter
      cases hbody : readBody after with
      | error e =>
          rw [hbody] at hread
          exact hread
      | ok r =>
          rw [hbody] at hread
          obtain ⟨hr, hle', hclose, hbody⟩ := hread
          have hregion := (hopen.mono (Nat.le_refl _) hle').merge (hclose.mono hle (Nat.le_refl _))
          have hopenEnd := Nat.le_trans t.region.start_le_stop hopen.stop
          exact ⟨hr, Nat.le_trans hle hle', hregion,
            hbody.mono (Nat.le_trans (Nat.min_le_left _ _) hopenEnd)
              (Nat.le_trans (Region.start_le_stop _) (Region.inside_merge_right _ _).2)⟩
    · exact reads_readRule hs
    · exact reads_readAssignment hs
    · exact hopen.within
    · obtain ⟨hsettle, hle'⟩ := hs.settle
      rcases (reads_readValue hsettle).cases with ⟨e, heq, he⟩ | ⟨⟨e, s₁⟩, heq, hs₁, hle₁, he⟩
      · rw [heq]
        exact he
      · rw [heq]
        exact ⟨hs₁, Nat.le_trans hle' hle₁, he.mono hle' (Nat.le_refl _)⟩
termination_by 2 * s.remaining

theorem reads_readBody {s : TokenStream} (hs : s.In source) :
    Reads source (s.place source)
      (fun hi r => r.2.region.Between source (s.place source) hi ∧
        AllLocated source (s.place source) r.2.region.start r.1)
      ((readBody s).map Subtype.val) := by
  rcases next_cases hs with ⟨s', hn⟩ | ⟨t, after, hn, hafter, hle, _, hclose⟩
  · rw [readBody_of_end hn]
    exact Token.isBoundary_place List.nil_suffix
  · rw [readBody_of_next hn]
    split
    · exact ⟨hafter, hle, hclose, trivial⟩
    · have hfirst := reads_read hs
      cases hread : read s with
      | error e =>
          rw [hread] at hfirst
          exact hfirst
      | ok r =>
          rw [hread] at hfirst
          obtain ⟨hr, hle₁, hlocated⟩ := hfirst
          have hlt := r.2
          have hmore := reads_readBody hr
          dsimp only
          cases hreadMore : readBody r.1.2 with
          | error e =>
              rw [hreadMore] at hmore
              exact hmore
          | ok r' =>
              rw [hreadMore] at hmore
              obtain ⟨hr', hle₂, hclose', hbody⟩ := hmore
              refine ⟨hr', Nat.le_trans hle₁ hle₂, hclose'.mono hle₁ (Nat.le_refl _), ?_⟩
              exact ⟨_, hclose'.start, hlocated, hbody⟩
termination_by 2 * s.remaining + 1

end

theorem answers_readAll {s : TokenStream} (hs : s.In source) :
    Answers source (AllLocated source (s.place source) source.utf8ByteSize) (readAll s) := by
  fun_induction readAll s with
  | case1 s _ => exact trivial
  | case2 s _ e hread =>
      have hfirst := reads_read hs
      rw [hread] at hfirst
      exact hfirst
  | case3 s _ first s' hlt hread e hmore ih =>
      have hfirst := reads_read hs
      rw [hread] at hfirst
      have hrest := ih hfirst.1
      rw [hmore] at hrest
      exact hrest
  | case4 s _ first s' hlt hread more hmore ih =>
      have hfirst := reads_read hs
      rw [hread] at hfirst
      obtain ⟨hs', hle, hlocated⟩ := hfirst
      have hrest := ih hs'
      rw [hmore] at hrest
      exact ⟨_, (Token.isBoundary_place hs'.suffix).le, hlocated, hrest⟩

/-- The statements of a source are in it one behind the other, or else what is
wrong with it is. -/
theorem located_ofSource (source : String) :
    Answers source (AllLocated source 0 source.utf8ByteSize) (ofSource source) := by
  have hread := answers_readAll (TokenStream.in_ofSource source)
  have hzero : (TokenStream.ofSource source).place source = 0 :=
    Token.place_eq (List.nil_append (Token.scan source)).symm
  rw [hzero] at hread
  exact hread

end Statement

end Lindenmayer
