import ClausalReasoner.Main
import ClausalReasoner.MixedRadix
import ClausalReasoner.CountedSearch
import ClausalReasoner.StackedWalk
import ClausalReasoner.ClausalForm.Reapplied
import ClausalReasoner.Semantics
import ClausalReasoner.Proofs.Replacement
import ClausalReasoner.Proofs.SolvedForm
import ClausalReasoner.Proofs.Symbols
import ClausalReasoner.Proofs.UnificationCorrect
import ClausalReasoner.Proofs.BackedAnswers
import ClausalReasoner.Proofs.ChainInvariant
import ClausalReasoner.Proofs.ConservativeForm
import ClausalReasoner.Proofs.GivenClauseInvariant
import ClausalReasoner.Proofs.QueryVariables
import ClausalReasoner.Proofs.Reachable
import ClausalReasoner.Proofs.Soundness
import ClausalReasoner.Proofs.ClausesApart
import ClausalReasoner.Proofs.FactorClosure
import ClausalReasoner.Proofs.NegativeVerdict
import ClausalReasoner.Proofs.ChainSoundness
import ClausalReasoner.Proofs.Composition
import ClausalReasoner.Proofs.StoredClauses
import ClausalReasoner.Proofs.ForwardCompleteness
import ClausalReasoner.Proofs.DefiniteClauses
import ClausalReasoner.Proofs.ForwardSoundness
import ClausalReasoner.Proofs.BackwardSoundness
import ClausalReasoner.Proofs.BackwardCompleteness
import ClausalReasoner.Proofs.UniversalReading
import ClausalReasoner.Proofs.ContradictoryPremises
import ClausalReasoner.Proofs.FreshAnswers
import ClausalReasoner.Proofs.ReportedAnswers
import ClausalReasoner.Proofs.FiledClauses
import ClausalReasoner.Proofs.UsableClosure
import ClausalReasoner.Proofs.ExhaustedSearch
import ClausalReasoner.Proofs.MostGeneralUnifiers
import ClausalReasoner.Proofs.WellFoundedProofs
import ClausalReasoner.Proofs.FactRetrieval
import ClausalReasoner.Proofs.Cascading
import ClausalReasoner.Proofs.RetrievalTermination
import ClausalReasoner.Proofs.RenamingTest
import ClausalReasoner.Proofs.RefusedSentences
import ClausalReasoner.Proofs.MergedLiterals
import ClausalReasoner.Proofs.SubsumedClauses
import ClausalReasoner.Proofs.TiedResolvents
import ClausalReasoner.Proofs.AlikeCollections
import ClausalReasoner.Proofs.KeyDiscrimination
import ClausalReasoner.Proofs.CounterOrder
import ClausalReasoner.Proofs.ExactMatching
import ClausalReasoner.Proofs.ExactSubsumption
import ClausalReasoner.Proofs.SubsumedRemoval
import ClausalReasoner.Proofs.LiftedResolvents
import ClausalReasoner.Proofs.CompleteFactors
import ClausalReasoner.Proofs.KeptClauses
import ClausalReasoner.Proofs.DistinctAnswers
import ClausalReasoner.Proofs.EqualityRewriting
import ClausalReasoner.Proofs.TopologicalOrder
import ClausalReasoner.Proofs.NegationsInward
import ClausalReasoner.Proofs.CaptureFreeRenaming
import ClausalReasoner.Proofs.ClausalShape
import ClausalReasoner.Unification.Unbounded
import ClausalReasoner.Proofs.UnificationTermination
import ClausalReasoner.Matching.Stacked
import ClausalReasoner.Proofs.MatchedInstances
import ClausalReasoner.Proofs.ForwardTermination
import ClausalReasoner.Proofs.ExactComposition
import ClausalReasoner.Proofs.RenamedBack
import ClausalReasoner.ClauseQueue.Indexed
import ClausalReasoner.Proofs.MapsInStep
import ClausalReasoner.Proofs.PrioritySet
import ClausalReasoner.Proofs.TieLimit
import ClausalReasoner.Proofs.ResolvedChains
import ClausalReasoner.CanonicalKey.Unbounded
import ClausalReasoner.Proofs.StableColors
import ClausalReasoner.MixedRadix.Carrying
import ClausalReasoner.Proofs.LexicographicCounting
import ClausalReasoner.Position.Walking
import ClausalReasoner.Proofs.FaithfulPositions
import ClausalReasoner.KnowledgeBase.Unbounded
import ClausalReasoner.Proofs.CascadesAtRest
import ClausalReasoner.Proofs.CompleteRetrieval
import ClausalReasoner.Fresh.Words
import ClausalReasoner.Resolution.Words
import ClausalReasoner.Proofs.WordIndices
import ClausalReasoner.Proofs.ResolventsInWords
import ClausalReasoner.Proofs.TiedFactors
