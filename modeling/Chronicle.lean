import Chronicle.Main
import Chronicle.Proofs.Acceptance
import Chronicle.Proofs.Beyond
import Chronicle.Proofs.Branching
import Chronicle.Proofs.Candidates
import Chronicle.Proofs.Capacity
import Chronicle.Proofs.Constraint
import Chronicle.Proofs.Depth
import Chronicle.Proofs.EmptyMoment
import Chronicle.Proofs.Firing
import Chronicle.Proofs.Formula.Brackets
import Chronicle.Proofs.Formula.DepthLimit
import Chronicle.Proofs.Formula.Grammar
import Chronicle.Proofs.Horizon
import Chronicle.Proofs.Inertia
import Chronicle.Proofs.Irrelevance
import Chronicle.Proofs.Leaves
import Chronicle.Proofs.Likeness
import Chronicle.Proofs.Lineage
import Chronicle.Proofs.Literal
import Chronicle.Proofs.ModelLimit
import Chronicle.Proofs.Obstacle
import Chronicle.Proofs.Realizable
import Chronicle.Proofs.Refusal
import Chronicle.Proofs.Reordering
import Chronicle.Proofs.Rules
import Chronicle.Proofs.Spelling
import Chronicle.Proofs.Timeline
