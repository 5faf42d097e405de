import SlashCommand.Proofs.Message.Extraction

/-!
# The tokens that no flag claims

Whether a token spells a flag or is the value of one can be read off the token itself and
the one in front of it.  Extraction leaves the tokens that are neither, in their order.
-/

namespace SlashCommand.Message

variable {flags known : List String}

/-! ## Claims -/

/-- A token belongs to a flag: it spells one, or it stands right behind one and spells no
known flag, so that it is the value of that one. -/
def claimed (flags known : List String) (before : Option Token) (token : Token) : Bool :=
  token.isAmong flags || (before.any fun other => other.isAmong flags) && !token.isAmong known

/-- The tokens that belong to no flag, given the token in front of the first one. -/
def unclaimedBehind (flags known : List String) (before : Option Token) (tokens : List Token) :
    List Token :=
  let paired := (before :: tokens.map some).zip tokens
  (paired.filter fun pair => !claimed flags known pair.1 pair.2).map Prod.snd

/-- The tokens of a message that belong to no flag. -/
def unclaimed (flags known : List String) (tokens : List Token) : List Token :=
  unclaimedBehind flags known none tokens

theorem unclaimedBehind_cons (before : Option Token) (token : Token) (rest : List Token) :
    unclaimedBehind flags known before (token :: rest) =
      if claimed flags known before token then
        unclaimedBehind flags known (some token) rest
      else
        token :: unclaimedBehind flags known (some token) rest := by
  cases hclaimed : claimed flags known before token <;> simp [unclaimedBehind, hclaimed]

/-- Behind a token that spells no flag, only the flags are claimed. -/
theorem claimed_of_not_flag {before : Option Token}
    (hbefore : (before.any fun other => other.isAmong flags) = false) (token : Token) :
    claimed flags known before token = token.isAmong flags := by
  simp [claimed, hbefore]

/-- Behind a flag, the value it takes is claimed, and so is another flag. -/
theorem unclaimedBehind_flag (hknown : flags ⊆ known) {flag : Token}
    (hflag : flag.isAmong flags = true) (rest : List Token) :
    ∃ before : Option Token, (before.any fun other => other.isAmong flags) = false ∧
      unclaimedBehind flags known (some flag) rest =
        unclaimedBehind flags known before (untaken known rest) := by
  cases rest with
  | nil => exact ⟨none, rfl, rfl⟩
  | cons next rest =>
      cases hnext : next.isAmong known with
      | true =>
          refine ⟨none, rfl, ?_⟩
          rw [untaken_cons_of_isAmong hnext, unclaimedBehind_cons, unclaimedBehind_cons]
          simp [claimed, hnext]
      | false =>
          have hvalue : next.isAmong flags = false := by
            apply Bool.eq_false_iff.mpr
            intro hamong
            rw [Token.isAmong_mono hknown hamong] at hnext
            cases hnext
          refine ⟨some next, hvalue, ?_⟩
          rw [untaken_cons_of_not_isAmong hnext, unclaimedBehind_cons, if_pos]
          simp [claimed, hflag, hnext]

/-- Extraction leaves the tokens that belong to no flag. -/
theorem positional_eq_unclaimed (hknown : flags ⊆ known) (tokens : List Token) :
    (extract flags known tokens).positional = unclaimed flags known tokens := by
  -- A token that spells no flag may stand in front: it claims nothing.
  suffices h : ∀ before : Option Token, (before.any fun other => other.isAmong flags) = false →
      (extract flags known tokens).positional = unclaimedBehind flags known before tokens from
    h none rfl
  induction tokens using extraction_induction flags known with
  | nil =>
      intro before _
      rfl
  | pass token rest htoken ih =>
      intro before hbefore
      rw [extract_cons_of_not_isAmong htoken, unclaimedBehind_cons,
        claimed_of_not_flag hbefore, htoken]
      exact congrArg (token :: ·) (ih (some token) htoken)
  | meet token rest htoken ih =>
      intro before hbefore
      obtain ⟨behind, hbehind, hrest⟩ := unclaimedBehind_flag hknown htoken rest
      rw [extract_cons_of_isAmong htoken, unclaimedBehind_cons, claimed_of_not_flag hbefore,
        htoken, if_pos rfl, hrest]
      exact ih behind hbehind

end SlashCommand.Message
